import LoopNest.Nest.Basic
import LoopNest.Proofs.Dataflow.Refusal
import LoopNest.Proofs.Transform.Effect

namespace LoopNest

open LoopNest.Flow Kernel Node

def Instance.ids : List Instance → Checked (List InstanceId)
  | [] => .ok []
  | i :: is => do
    let point ← i.point
    let rest ← ids is
    return (i.statement.computation, point) :: rest

def Program.walk (p : Program) (roots : List Node) : Numbered (List InstanceId) := do
  let k ← Kernel.ofTree p roots
  let t ← k.trace
  Instance.ids t

theorem Instance.ids_eq_ok {t : List Instance} {ids : List InstanceId} (h : Instance.ids t = .ok ids) :
    ids = t.map Instance.id := by
  induction t generalizing ids with
  | nil =>
    cases h
    rfl
  | cons i t ih =>
    obtain ⟨point, rest, hpoint, hrest, rfl⟩ := bind₂_eq_ok.1 h
    rw [List.map_cons, Instance.point_eq hpoint, ih hrest]

theorem Instance.ids_failsOnly (t : List Instance) : FailsOnlyBy .overflow (Instance.ids t) := by
  induction t with
  | nil => exact .ok _
  | cons i t ih =>
    exact i.point_failsOnly.bind fun _ _ => ih.bind fun _ _ => .ok _

namespace Program

variable {p : Program} {roots : List Node}

theorem walk_eq_ok {ids : List InstanceId} (h : p.walk roots = .ok ids) :
    ids = pointsAll outermost roots := by
  simp only [walk, bind_eq_ok, lift_eq_ok] at h
  obtain ⟨k, hk, t, ht, h⟩ := h
  rw [Instance.ids_eq_ok h, trace_eq ht, ids_of_tree hk]

theorem walk_failsOnly (hp : p.WellFormed) (h : TidyAll p [] roots) :
    FailsOnlyBy overflowing (p.walk roots) :=
  (ofTree_failsOnly hp h).bind fun _ _ => (trace_failsOnly _).lift.bind fun _ _ => (Instance.ids_failsOnly _).lift

theorem walk_cases (hp : p.WellFormed) (h : TidyAll p [] roots) :
    p.walk roots = .ok (pointsAll outermost roots) ∨ p.walk roots = .error overflowing := by
  cases hw : p.walk roots with
  | ok ids => exact Or.inl (congrArg _ (walk_eq_ok hw))
  | error e => exact Or.inr (congrArg _ (walk_failsOnly hp h e hw))

end Program

section Legality

variable {p : Program} {roots : List Node}

theorem ofTree_keepsWork (hp : p.WellFormed) (h : TidyAll p [] roots) :
    KeepsWork ((Kernel.ofTree p roots).mapRefusal .numbering) := by
  intro e he
  cases e with
  | fault f => trivial
  | refused i =>
    obtain ⟨e', he', -⟩ := Outcome.mapRefusal_eq_refuse.1 he
    cases ofTree_failsOnly hp h _ he'

theorem ofProgram_keepsWork (hp : p.WellFormed) : KeepsWork (Dataflow.ofProgram p) := by
  refine (keepsWork_lift _).bind fun roots hroots => ?_
  obtain ⟨hsound, hdistinct⟩ := sound_of_nesting hp (lift_eq_ok.1 hroots)
  refine (ofTree_keepsWork hp hsound.tidy).bind fun k hk => Dataflow.ofKernel_keepsWork ?_
  rw [ids_of_tree (Outcome.mapRefusal_eq_ok.1 hk)]
  exact hdistinct _

theorem checkLegal_keepsWork (hp : p.WellFormed) (hfew : p.FewInstances) (hr : Reshaped p roots) :
    KeepsWork ((Context.ofProgram p).checkLegal roots) := by
  rw [Context.checkLegal, (Context.ofProgram p).recorded_get]
  refine (ofProgram_keepsWork hp).bind fun d hd => ?_
  refine (ofTree_keepsWork hp (hr.sound hp).tidy).bind fun k hk => ?_
  obtain ⟨initial, hi, hrecords⟩ := Dataflow.records_of_program hp hfew hd
  obtain ⟨first, k', hn, hk', hv⟩ := Program.initialVisits_eq_ok.1 hi
  obtain ⟨first', hn', hperm⟩ := hr.points_perm hp
  cases hn.symm.trans hn'
  refine Dataflow.check_keepsWork hrecords ?_
  rw [ids_of_visits hv, ids_of_tree (Outcome.mapRefusal_eq_ok.1 hk), ids_of_tree hk']
  exact hperm _

theorem walk_perm_of_applyTo (hp : p.WellFormed) (hr : Reshaped p roots) {t : Transformation} {roots' : List Node}
    (h : t.applyTo p roots = .ok roots') (hroots : p.walk roots ≠ .error (.fault .overflow))
    (hroots' : p.walk roots' ≠ .error (.fault .overflow)) :
    ∃ ids ids', p.walk roots = .ok ids ∧ p.walk roots' = .ok ids' ∧ ids'.Perm ids := by
  have hconserves := conserves_applyTo (hr.sound hp) h
  have hbefore := (Program.walk_cases hp (hr.sound hp).tidy).resolve_right hroots
  have hafter := (Program.walk_cases hp hconserves.sound.tidy).resolve_right hroots'
  exact ⟨_, _, hbefore, hafter, hconserves.points _⟩

theorem not_losesWork_of_derive (hp : p.WellFormed) (hfew : p.FewInstances) {n : Nest} (hr : Reshaped p n.roots)
    {t : Transformation} {e : Illegality}
    (h : n.derive (Context.ofProgram p) t = Outcome.refuse (.illegal e)) : ¬ e.LosesWork := by
  rcases bind_eq_error.1 h with h | ⟨roots', happly, h⟩
  · obtain ⟨e', -, hillegal⟩ := Outcome.mapRefusal_eq_refuse.1 h
    cases hillegal
  · rcases bind_eq_error.1 h with h | ⟨u, -, h⟩
    · obtain ⟨e', he', hillegal⟩ := Outcome.mapRefusal_eq_refuse.1 h
      cases hillegal
      have hr' := Reshaped.step t hr (Outcome.mapRefusal_eq_ok.1 happly)
      exact checkLegal_keepsWork hp hfew hr' _ he'
    · cases h

end Legality

/-- From any tree that transformations lead to, one more transformation leads to a tree whose walk visits the
same instances, each as often, as long as no index overflows; and a derivation is never refused because an
instance is new, repeated or gone, or because the tree cannot be lowered. -/
theorem derivation_keeps_work {description : Description} {p : Program} (hp : description.build = .ok p)
    {roots : List Node} (hr : Reshaped p roots) (t : Transformation) :
    (∀ roots', t.applyTo p roots = .ok roots' → p.walk roots ≠ .error (.fault .overflow) →
      p.walk roots' ≠ .error (.fault .overflow) →
      ∃ ids ids', p.walk roots = .ok ids ∧ p.walk roots' = .ok ids' ∧ ids'.Perm ids) ∧
    (p.FewInstances → ∀ n : Nest, n.roots = roots → ∀ e,
      n.derive (Context.ofProgram p) t = Outcome.refuse (.illegal e) → ¬ e.LosesWork) := by
  have hwf := Description.wellFormed_of_build hp
  constructor
  · intro roots' h hroots hroots'
    exact walk_perm_of_applyTo hwf hr h hroots hroots'
  · rintro hfew n rfl e he
    exact not_losesWork_of_derive hwf hfew hr he

theorem derivation_keeps_work_producerConsumer :
    (∃ ids ids', ProducerConsumer.program.walk ProducerConsumer.separate = .ok ids ∧
      ProducerConsumer.program.walk (ProducerConsumer.fused {}) = .ok ids' ∧ ids'.Perm ids) ∧
    ∀ n : Nest, n.roots = ProducerConsumer.separate → ∀ e,
      n.derive (Context.ofProgram ProducerConsumer.program) (.fuse "produce" "consume" "i") =
        Outcome.refuse (.illegal e) → ¬ e.LosesWork := by
  obtain ⟨hwork, hderive⟩ := derivation_keeps_work ProducerConsumer.build_eq
    (Reshaped.initial ProducerConsumer.nesting_eq) (.fuse "produce" "consume" "i")
  exact ⟨hwork _ rfl nofun nofun, hderive ProducerConsumer.fewInstances⟩

end LoopNest

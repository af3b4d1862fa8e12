import LoopNest.Proofs.Dataflow.Legality
import LoopNest.Proofs.Execution.Refinement
import LoopNest.Proofs.Kernel.Order
import Mathlib.Data.List.Perm.Basic

/-!
Concurrent loops of a legal tree may run in any order: the instances that an order may exchange do not clash,
so their steps commute, and every order ends with the contents of the walk.
-/

namespace LoopNest

open LoopNest.Flow Kernel

variable {V : Type} {A : Arithmetic V} {p : Program}

namespace Instance

def step (A : Arithmetic V) (p : Program) (i : Instance) (m : Memory V) : Memory V :=
  match i.visit with
  | .ok v => v.step A p m
  | .error _ => m

theorem step_of_visit {i : Instance} {v : Visit} (h : i.visit = .ok v) : i.step A p = v.step A p := by
  funext m
  simp only [step, h]

theorem runAll_step {t : List Instance} {vs : List Visit} (h : visits t = .ok vs) (m : Memory V) :
    runAll (step A p) t m = Visit.stepAll A p vs m := by
  induction t generalizing vs m with
  | nil => cases h; rfl
  | cons i t ih =>
    obtain ⟨v, rest, hv, hr, rfl⟩ := visits_cons_eq_ok.1 h
    rw [runAll_cons, ih hr, step_of_visit hv, Visit.stepAll_cons]

theorem visits_of_perm {t o : List Instance} {vs : List Visit} (h : visits t = .ok vs) (ho : o.Perm t) :
    ∃ ws, visits o = .ok ws ∧ ws.Perm vs := by
  obtain ⟨ws, hforall, hperm⟩ := List.perm_comp_forall₂ ho (traverses_visits.eq_ok.1 h)
  exact ⟨ws, traverses_visits.eq_ok.2 hforall, hperm⟩

theorem commute_of_separate {t : List Instance} {vs : List Visit} (h : visits t = .ok vs)
    (hseparate : ∀ v ∈ vs, ∀ w ∈ vs, v.Apart w → ¬ v.Clashes w) :
    ∀ i ∈ t, ∀ j ∈ t, i.Apart j → Commute (step A p) i j := by
  intro i hi j hj hapart m
  obtain ⟨v, hv, hiv⟩ := traverses_visits.exists_result h hi
  obtain ⟨w, hw, hjw⟩ := traverses_visits.exists_result h hj
  rw [step_of_visit hiv, step_of_visit hjw]
  refine Visit.step_comm (hseparate v hv w hw ?_) m
  obtain ⟨_, _, _, _, _, _, rfl⟩ := visit_eq_ok.1 hiv
  obtain ⟨_, _, _, _, _, _, rfl⟩ := visit_eq_ok.1 hjw
  exact hapart

end Instance

namespace Interpreter

def runOrder (A : Arithmetic V) (p : Program) (o : List Instance) (i : Inputs V) : Executed (Contents V) := do
  let contents ← initialContents A i p.buffers
  visitAll (visit A p) o contents.toArray

theorem run_eq_runOrder {k : Kernel} {t : List Instance} (ht : k.trace = .ok t) (i : Inputs V) :
    run A p k i = runOrder A p t i := by
  simp only [run, runOrder, walk_of_trace (visit A p) ht]

theorem visitAll_perm {t o : List Instance} (ho : o.Perm t) (ht : ∀ i ∈ t, i.statement.IsOf p)
    {vs : List Visit} (hv : Instance.visits t = .ok vs) (hin : ∀ v ∈ vs, ∀ a ∈ v.locations, Inside p a)
    (hrun : ∀ m, runAll (Instance.step A p) o m = runAll (Instance.step A p) t m) {c : Contents V}
    (hc : p.Shaped c) : visitAll (visit A p) o c = visitAll (visit A p) t c := by
  obtain ⟨ws, hw, hperm⟩ := Instance.visits_of_perm hv ho
  have ho' : ∀ i ∈ o, i.statement.IsOf p := fun i hi => ht i (ho.mem_iff.1 hi)
  have hin' : ∀ w ∈ ws, ∀ a ∈ w.locations, Inside p a := fun w hw => hin w (hperm.mem_iff.1 hw)
  by_cases hcomputes : ∀ i ∈ t, i.Computes
  · obtain ⟨c₁, hc₁, hshaped₁, hmemory₁⟩ := exists_visitAll (A := A) ht hv hin hcomputes hc
    obtain ⟨c₂, hc₂, hshaped₂, hmemory₂⟩ := exists_visitAll (A := A) ho' hw hin'
      (fun i hi => hcomputes i (ho.mem_iff.1 hi)) hc
    rw [hc₁, hc₂, contents_ext hshaped₂ hshaped₁]
    rw [hmemory₁, hmemory₂, ← Instance.runAll_step hv, ← Instance.runAll_step hw, hrun]
  · rw [visitAll_eq_overflow (A := A) ht hv hin hcomputes hc, visitAll_eq_overflow (A := A) ho' hw hin'
      (fun h => hcomputes fun i hi => h i (ho.mem_iff.2 hi)) hc]

/-- For a legal tree every order ends as the walk does: with the same contents, or without any because an
index overflows. -/
theorem run_of_order {description : Description} (hp : description.build = .ok p) (hfew : p.FewInstances)
    {roots : List Node} (hlegal : (Context.ofProgram p).checkLegal roots = .ok ()) {i : Inputs V}
    (hi : i.validate p = .ok ()) :
    ∃ k, Kernel.ofTree p roots = .ok k ∧
      ((∃ c, run A p k i = .ok c) ∨ run A p k i = .error (.fault .overflow)) ∧
      ∀ o, k.Order o → runOrder A p o i = run A p k i := by
  obtain ⟨initial, k, vs, -, hk, hv, hfaithful⟩ :=
    Context.faithful_of_checkLegal (Description.wellFormed_of_build hp) hfew hlegal
  obtain ⟨t, ht, hv⟩ := bind_eq_ok.1 hv
  obtain ⟨values, hvalues, hshaped⟩ := exists_initialContents (A := A) hi
  have hof : ∀ i ∈ t, i.statement.IsOf p := fun i hi => isOf_of_trace hk ht hi
  have hrun : run A p k i = visitAll (visit A p) t values.toArray := by
    rw [run_eq_runOrder ht, runOrder, hvalues, ok_bind]
  refine ⟨k, hk, ?_, fun o ho => ?_⟩
  · rw [hrun]
    by_cases hcomputes : ∀ i ∈ t, i.Computes
    · obtain ⟨c, hc, -, -⟩ := exists_visitAll (A := A) hof hv hfaithful.inside hcomputes hshaped
      exact Or.inl ⟨c, hc⟩
    · exact Or.inr (visitAll_eq_overflow hof hv hfaithful.inside hcomputes hshaped)
  · obtain ⟨hperm, hsame⟩ := runAll_order ho ht
      (Instance.commute_of_separate (A := A) (p := p) hv hfaithful.separate)
    rw [hrun, runOrder, hvalues, ok_bind]
    exact visitAll_perm hperm hof hv hfaithful.inside hsame hshaped

theorem run_of_order_producerConsumer :
    ∃ k, Kernel.ofTree ProducerConsumer.program (ProducerConsumer.fused { parallel := true }) = .ok k ∧
      ((∃ c, run .binary64 ProducerConsumer.program k [("input", #[1.0, 2.0])] = .ok c) ∨
        run .binary64 ProducerConsumer.program k [("input", #[1.0, 2.0])] = .error (.fault .overflow)) ∧
      ∀ o, k.Order o → runOrder .binary64 ProducerConsumer.program o [("input", #[1.0, 2.0])] =
        run .binary64 ProducerConsumer.program k [("input", #[1.0, 2.0])] :=
  run_of_order ProducerConsumer.build_eq ProducerConsumer.fewInstances ProducerConsumer.checkLegal_fused.2 rfl

end Interpreter

end LoopNest

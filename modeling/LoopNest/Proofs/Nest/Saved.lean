import LoopNest.Proofs.Dataflow.SelfCheck
import LoopNest.Proofs.Nest.Soundness
import LoopNest.Proofs.Schedule.Text
import LoopNest.Proofs.Transform.Names

namespace LoopNest

open Node

def Program.Legible (p : Program) : Prop :=
  (∀ c ∈ p.computations, Name.Legible c.name) ∧ ∀ a ∈ p.iteratorNames, Name.Legible a

namespace Nest

variable {c : Context} {p : Program}

/-- The nests that derivations make of the initial one; a nest may be given its cost at any time. -/
inductive Reachable (c : Context) : Nest → Prop
  | initial {n : Nest} (h : Nest.initial c = .ok n) : Reachable c n
  | derived {n m : Nest} {t : Transformation} (hn : Reachable c n) (h : n.derive c t = .ok m) : Reachable c m
  | evaluated {n m : Nest} {x : Float} (hn : Reachable c n) (h : n.withCost x = .ok m) : Reachable c m

theorem deriveAll_snoc {n m k : Nest} {s : Schedule} {t : Transformation} (h : deriveAll c n s = .ok m)
    (ht : m.derive c t = .ok k) : deriveAll c n (s ++ [t]) = .ok k := by
  induction s generalizing n with
  | nil =>
    cases h
    exact bind_eq_ok.2 ⟨k, ht, rfl⟩
  | cons u s ih =>
    obtain ⟨next, hnext, h⟩ := bind_eq_ok.1 h
    exact bind_eq_ok.2 ⟨next, hnext, ih h⟩

theorem replay_applied {n : Nest} (h : Reachable c n) : replay c n.applied = .ok { n with cost := none } := by
  induction h with
  | @initial n h =>
    obtain ⟨roots, hroots, hn⟩ := bind_eq_ok.1 h
    cases hn
    exact bind_eq_ok.2 ⟨_, lift_eq_ok.2 h, rfl⟩
  | @derived n m t hn h ih =>
    obtain ⟨first, hfirst, hall⟩ := bind_eq_ok.1 ih
    obtain ⟨roots, hroots, hm⟩ := bind_eq_ok.1 h
    obtain ⟨_, hlegal, hm⟩ := bind_eq_ok.1 hm
    cases hm
    exact bind_eq_ok.2 ⟨first, hfirst, deriveAll_snoc hall h⟩
  | @evaluated n m x hn h ih =>
    rw [withCost] at h
    split at h
    · cases h
    · cases h
      exact ih

theorem reshaped_of_reachable {n : Nest} (h : Reachable (Context.ofProgram p) n) : Reshaped p n.roots :=
  (reshaped_replay (replay_applied h)).1

theorem legal_of_reachable (hp : p.WellFormed) {d : Dataflow} (hd : Dataflow.ofProgram p = .ok d)
    (hsmall : d.computationOf.size ≤ 4294967296) {n : Nest} (hn : Reachable (Context.ofProgram p) n) :
    (Context.ofProgram p).checkLegal n.roots = .ok () := by
  have hreplay := replay_applied hn
  by_cases hne : n.applied = []
  · rw [hne] at hreplay
    obtain ⟨first, hfirst, hreplay⟩ := bind_eq_ok.1 hreplay
    obtain ⟨roots, hroots, hfirst⟩ := bind_eq_ok.1 (lift_eq_ok.1 hfirst)
    cases hfirst
    obtain rfl : roots = n.roots := congrArg Nest.roots (Except.ok.inj hreplay)
    obtain ⟨s, hs, hgrown⟩ := grown_of_nesting hp hroots
    exact Context.checkLegal_initial_of_small hroots (hs ▸ hgrown.untagged) hd hsmall
  · exact (reshaped_replay hreplay).2 hne

theorem names_applied (hp : p.WellFormed) {n : Nest} (h : Reachable (Context.ofProgram p) n) :
    ∀ t ∈ n.applied, ∀ a ∈ t.names, (∃ c ∈ p.computations, c.name = a) ∨
      ∃ i ∈ p.iteratorNames, Name.Extends i a := by
  induction h with
  | initial h =>
    obtain ⟨roots, hroots, hn⟩ := bind_eq_ok.1 h
    cases hn
    simp
  | derived hn h ih =>
    rw [applied_derive h]
    intro t ht
    rcases List.mem_append.1 ht with ht | ht
    · exact ih t ht
    · obtain rfl := List.mem_singleton.1 ht
      intro a ha
      rcases names_of_applyTo (derive_eq_ok h).1 a ha with hdim | hname
      · exact Or.inr ((reshaped_of_reachable hn).namedAfter hp a hdim)
      · exact Or.inl hname
  | evaluated hn h ih =>
    rw [withCost] at h
    split at h
    · cases h
    · cases h
      exact ih

theorem forall_names_applied {P : String → Prop} (hp : p.WellFormed) (hcomputations : ∀ c ∈ p.computations, P c.name)
    (hiterators : ∀ a ∈ p.iteratorNames, P a) (hextends : ∀ {a b : String}, P a → Name.Extends a b → P b)
    {n : Nest} (h : Reachable (Context.ofProgram p) n) : ∀ t ∈ n.applied, ∀ a ∈ t.names, P a := by
  intro t ht a ha
  rcases names_applied hp h t ht a ha with ⟨c, hc, rfl⟩ | ⟨i, hi, hia⟩
  · exact hcomputations c hc
  · exact hextends (hiterators i hi) hia

theorem legible_applied (hp : p.WellFormed) (hlegible : p.Legible) {n : Nest}
    (h : Reachable (Context.ofProgram p) n) : ∀ t ∈ n.applied, t.Legible :=
  forall_names_applied hp hlegible.1 hlegible.2 Name.Legible.of_extends h

end Nest

theorem ProducerConsumer.reachable :
    Nest.Reachable (Context.ofProgram program) ⟨separate, [], none⟩ ∧
    Nest.Reachable (Context.ofProgram program) ⟨fused {}, [.fuse "produce" "consume" "i"], none⟩ ∧
    Nest.Reachable (Context.ofProgram program)
      ⟨fused { parallel := true }, [.fuse "produce" "consume" "i", .parallelize "i"], none⟩ := by
  have hinitial := Nest.Reachable.initial (c := Context.ofProgram program) (n := ⟨separate, [], none⟩) rfl
  have hfused := hinitial.derived (Nest.derive_of_legal (t := .fuse "produce" "consume" "i") rfl checkLegal_fused.1)
  have hparallel := hfused.derived (Nest.derive_of_legal (t := .parallelize "i") rfl checkLegal_fused.2)
  exact ⟨hinitial, hfused, hparallel⟩

/-- The schedule of every reachable nest leads to that nest again. Its text is read back iff the names in it
are legible, and they are if the names of the program are. -/
theorem saved_schedule_replays {description : Description} {p : Program} (hp : description.build = .ok p) {n : Nest}
    (h : n.Reachable (Context.ofProgram p)) (hfits : ∀ t ∈ n.applied, t.FactorFits) :
    Nest.replay (Context.ofProgram p) n.applied = .ok { n with cost := none } ∧
    (Schedule.parse n.applied.text = .ok n.applied ↔ ∀ t ∈ n.applied, ∀ a ∈ t.names, Name.Legible a) ∧
    (p.Legible → ∃ s m, Schedule.parse n.applied.text = .ok s ∧ Nest.replay (Context.ofProgram p) s = .ok m ∧
      m.roots = n.roots ∧ m.applied = n.applied) := by
  have hreplay := Nest.replay_applied h
  have hparse (hnames : ∀ t ∈ n.applied, t.Legible) : Schedule.parse n.applied.text = .ok n.applied :=
    Schedule.parse_text fun t ht => ⟨hfits t ht, hnames t ht⟩
  refine ⟨hreplay, ⟨fun hparse t ht => (Schedule.of_parseLines hparse t ht).2, hparse⟩, fun hlegible => ?_⟩
  have hnames := Nest.legible_applied (Description.wellFormed_of_build hp) hlegible h
  exact ⟨n.applied, _, hparse hnames, hreplay, rfl, rfl⟩

theorem saved_schedule_replays_producerConsumer : ∃ (n m : Nest) (s : Schedule),
    n.applied = [.fuse "produce" "consume" "i", .parallelize "i"] ∧ Schedule.parse n.applied.text = .ok s ∧
    Nest.replay (Context.ofProgram ProducerConsumer.program) s = .ok m ∧ m.roots = n.roots ∧
    m.applied = n.applied := by
  obtain ⟨-, -, hreachable⟩ := ProducerConsumer.reachable
  obtain ⟨-, -, hlegible⟩ := saved_schedule_replays ProducerConsumer.build_eq hreachable (by decide)
  obtain ⟨s, m, hreplayed⟩ := hlegible ⟨by decide +kernel, by decide +kernel⟩
  exact ⟨_, m, s, rfl, hreplayed⟩

end LoopNest

import LoopNest.Proofs.Dataflow.Decision

namespace LoopNest

open LoopNest.Flow

instance (v w : Visit) : Decidable (v.Apart w) :=
  inferInstanceAs (Decidable (∃ a ∈ v.concurrent, ∃ b ∈ w.concurrent,
    a.loop = b.loop ∧ a.around = b.around ∧ a.value ≠ b.value))

instance (v w : Visit) : Decidable (v.Clashes w) :=
  inferInstanceAs (Decidable (v.store ∈ w.locations ∨ w.store ∈ v.locations))

namespace Flow

def insideCheck (p : Program) (a : Location) : Bool :=
  match p.buffers[a.1]?, a.2 with
  | some b, some offset => offset < b.volume
  | _, _ => false

theorem insideCheck_eq_true {p : Program} {a : Location} : insideCheck p a = true ↔ Inside p a := by
  rw [insideCheck, Inside]
  cases p.buffers[a.1]? <;> cases a.2 <;> simp

instance (p : Program) (a : Location) : Decidable (Inside p a) :=
  decidable_of_iff _ insideCheck_eq_true

def flowsFrom (before : List Visit) : List Visit → List (InstanceId × List (Option InstanceId))
  | [] => []
  | v :: vs => (v.id, producersOf before v) :: flowsFrom (before ++ [v]) vs

theorem mem_flowsFrom {before vs : List Visit} {x : InstanceId × List (Option InstanceId)} :
    x ∈ flowsFrom before vs ↔
      ∃ earlier v later, vs = earlier ++ v :: later ∧ x = (v.id, producersOf (before ++ earlier) v) := by
  induction vs generalizing before with
  | nil => simp [flowsFrom]
  | cons v vs ih =>
    rw [flowsFrom, List.mem_cons, ih]
    constructor
    · rintro (rfl | ⟨earlier, w, later, rfl, rfl⟩)
      · exact ⟨[], v, vs, rfl, by rw [List.append_nil]⟩
      · exact ⟨v :: earlier, w, later, rfl, by rw [List.append_assoc, List.singleton_append]⟩
    · rintro ⟨earlier, w, later, hsplit, rfl⟩
      cases earlier with
      | nil =>
        cases hsplit
        exact Or.inl (by rw [List.append_nil])
      | cons u earlier =>
        cases hsplit
        exact Or.inr ⟨earlier, w, later, rfl, by rw [List.append_assoc, List.singleton_append]⟩

structure Matches (p : Program) (initial vs : List Visit) : Prop where
  distinct : (vs.map Visit.id).Nodup
  known : vs.map Visit.id ⊆ initial.map Visit.id
  complete : initial.map Visit.id ⊆ vs.map Visit.id
  inside : ∀ v ∈ vs, ∀ a ∈ v.locations, Inside p a
  flows : ∀ x ∈ flowsFrom [] vs, ∀ y ∈ flowsFrom [] initial, x.1 = y.1 → x.2 = y.2
  final : ∀ v ∈ vs ++ initial, lastWriter vs v.store = lastWriter initial v.store
  separate : ∀ v ∈ vs, ∀ w ∈ vs, v.Apart w → ¬ v.Clashes w

instance (p : Program) (initial vs : List Visit) : Decidable (Matches p initial vs) :=
  decidable_of_iff
    ((vs.map Visit.id).Nodup ∧ vs.map Visit.id ⊆ initial.map Visit.id ∧
      initial.map Visit.id ⊆ vs.map Visit.id ∧ (∀ v ∈ vs, ∀ a ∈ v.locations, Inside p a) ∧
      (∀ x ∈ flowsFrom [] vs, ∀ y ∈ flowsFrom [] initial, x.1 = y.1 → x.2 = y.2) ∧
      (∀ v ∈ vs ++ initial, lastWriter vs v.store = lastWriter initial v.store) ∧
      ∀ v ∈ vs, ∀ w ∈ vs, v.Apart w → ¬ v.Clashes w)
    ⟨fun ⟨h₁, h₂, h₃, h₄, h₅, h₆, h₇⟩ => ⟨h₁, h₂, h₃, h₄, h₅, h₆, h₇⟩,
      fun ⟨h₁, h₂, h₃, h₄, h₅, h₆, h₇⟩ => ⟨h₁, h₂, h₃, h₄, h₅, h₆, h₇⟩⟩

variable {p : Program} {initial vs : List Visit}

theorem matches_iff_faithful : Matches p initial vs ↔ Faithful p initial vs := by
  constructor
  · intro h
    refine ⟨Dataflow.count_eq_one_or_zero.2 ⟨h.distinct, fun x => ⟨@h.known x, @h.complete x⟩⟩, h.inside, ?_, ?_,
      h.separate⟩
    · rintro before v after hvs before' v' after' hinitial hid
      exact h.flows _ (mem_flowsFrom.2 ⟨before, v, after, hvs, rfl⟩) _
        (mem_flowsFrom.2 ⟨before', v', after', hinitial, rfl⟩) hid
    · intro a
      by_cases ha : ∃ v ∈ vs ++ initial, v.store = a
      · obtain ⟨v, hv, rfl⟩ := ha
        exact h.final v hv
      · have hnone : ∀ ws, ws ⊆ vs ++ initial → lastWriter ws a = none := fun ws hws =>
          lastWriter_eq_none.2 fun v hv hstore => ha ⟨v, hws hv, hstore⟩
        rw [hnone vs (List.subset_append_left _ _), hnone initial (List.subset_append_right _ _)]
  · intro h
    obtain ⟨hdistinct, hmem⟩ := Dataflow.count_eq_one_or_zero.1 h.once
    refine ⟨hdistinct, fun x => (hmem x).1, fun x => (hmem x).2, h.inside, ?_, fun v _ => h.final _, h.separate⟩
    intro x hx y hy hxy
    obtain ⟨before, v, after, hvs, rfl⟩ := mem_flowsFrom.1 hx
    obtain ⟨before', v', after', hinitial, rfl⟩ := mem_flowsFrom.1 hy
    exact h.producers before v after hvs before' v' after' hinitial hxy

instance : Decidable (Faithful p initial vs) := decidable_of_iff _ matches_iff_faithful

end Flow

end LoopNest

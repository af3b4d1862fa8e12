import LoopNest.Kernel.Numbering
import LoopNest.Proofs.Kernel.Trace
import Mathlib.Data.List.Pairwise

namespace LoopNest

def Env.Precedes (a b : Env) : Prop := a.reverse.le b.reverse

namespace Env

theorem precedes_refl (a : Env) : a.Precedes a := List.le_refl a.reverse

theorem Precedes.antisymm {a b : Env} (hab : a.Precedes b) (hba : b.Precedes a) : a = b :=
  List.reverse_inj.1 (List.le_antisymm hab hba)

theorem precedes_of_suffix {env a b : Env} {v w : Int} (hvw : v < w) (ha : (v :: env) <:+ a)
    (hb : (w :: env) <:+ b) : a.Precedes b := by
  obtain ⟨x, rfl⟩ := ha
  obtain ⟨y, rfl⟩ := hb
  simp only [Precedes, List.reverse_append, List.reverse_cons, List.append_assoc, List.singleton_append]
  exact List.append_left_le (List.le_of_lt (List.Lex.rel hvw))

end Env

namespace Kernel

mutual

def InRange (low high : Nat) : Node → Prop
  | .leaf _ => low = high
  | .loop r body => r.number = low ∧ InRangeAll (low + 1) high body

def InRangeAll (low high : Nat) : List Node → Prop
  | [] => low = high
  | n :: ns => ∃ mid, InRange low mid n ∧ InRangeAll mid high ns

end

mutual

theorem InRange.le {low high : Nat} (n : Node) (h : InRange low high n) : low ≤ high := by
  cases n with
  | leaf st => exact Nat.le_of_eq h
  | loop r body =>
    have := InRangeAll.le body h.2
    omega

theorem InRangeAll.le {low high : Nat} (ns : List Node) (h : InRangeAll low high ns) : low ≤ high := by
  cases ns with
  | nil => exact Nat.le_of_eq h
  | cons n ns =>
    obtain ⟨mid, hn, hns⟩ := h
    exact Nat.le_trans (InRange.le n hn) (InRangeAll.le ns hns)

end

def Placed (concurrent : List Iteration) (env : Env) (low high : Nat) (a : Iteration) : Prop :=
  a ∈ concurrent ∨ (low ≤ a.loop ∧ a.loop < high ∧ env <:+ a.around)

theorem mem_inside {r : Range} {env : Env} {concurrent : List Iteration} {v : Int} {a : Iteration}
    (h : a ∈ r.inside env concurrent v) : a ∈ concurrent ∨ a = ⟨r.number, r.dim, env, v⟩ := by
  rw [Range.inside] at h
  split at h
  · rcases List.mem_append.1 h with h | h
    · exact Or.inl h
    · exact Or.inr (List.mem_singleton.1 h)
  · exact Or.inl h

mutual

theorem placed_of_traceNode {env : Env} {concurrent : List Iteration} {low high : Nat} (n : Node)
    (hn : InRange low high n) {t : List Instance} (ht : traceNode env concurrent n = .ok t)
    {i : Instance} (hi : i ∈ t) {a : Iteration} (ha : a ∈ i.concurrent) :
    Placed concurrent env low high a := by
  cases n with
  | leaf st =>
    cases ht
    rw [List.mem_singleton.1 hi] at ha
    exact Or.inl ha
  | loop r body =>
    obtain ⟨lower, upper, -, ht⟩ := traceNode_loop_eq_ok.1 ht
    obtain ⟨v, u, -, -, hu, hi⟩ := mem_traceEach ht hi
    rcases placed_of_traceNodes body hn.2 hu hi ha with hmem | ⟨hlo, hhi, hsuffix⟩
    · rcases mem_inside hmem with hmem | rfl
      · exact Or.inl hmem
      · have hle := InRangeAll.le body hn.2
        have hnumber := hn.1
        exact Or.inr ⟨by simp only; omega, by simp only; omega, List.suffix_refl env⟩
    · exact Or.inr ⟨by omega, hhi, (List.suffix_cons v env).trans hsuffix⟩

theorem placed_of_traceNodes {env : Env} {concurrent : List Iteration} {low high : Nat} (ns : List Node)
    (hns : InRangeAll low high ns) {t : List Instance} (ht : traceNodes env concurrent ns = .ok t)
    {i : Instance} (hi : i ∈ t) {a : Iteration} (ha : a ∈ i.concurrent) :
    Placed concurrent env low high a := by
  cases ns with
  | nil => cases ht; cases hi
  | cons n ns =>
    obtain ⟨mid, hn, hns⟩ := hns
    obtain ⟨first, rest, hf, hr, rfl⟩ := traceNodes_cons_eq_ok.1 ht
    have hle := InRange.le n hn
    have hle' := InRangeAll.le ns hns
    rcases List.mem_append.1 hi with hi | hi
    · rcases placed_of_traceNode n hn hf hi ha with hmem | ⟨hlo, hhi, hsuffix⟩
      · exact Or.inl hmem
      · exact Or.inr ⟨hlo, by omega, hsuffix⟩
    · rcases placed_of_traceNodes ns hns hr hi ha with hmem | ⟨hlo, hhi, hsuffix⟩
      · exact Or.inl hmem
      · exact Or.inr ⟨by omega, hhi, hsuffix⟩

end

def Ordered (as bs : List Iteration) : Prop :=
  ∀ a ∈ as, ∀ b ∈ bs, a.loop = b.loop → a.around.Precedes b.around

def OrderedTrace (t : List Instance) : Prop :=
  (∀ i ∈ t, Ordered i.concurrent i.concurrent) ∧ t.Pairwise fun i j => Ordered i.concurrent j.concurrent

theorem OrderedTrace.append {t u : List Instance} (ht : OrderedTrace t) (hu : OrderedTrace u)
    (h : ∀ i ∈ t, ∀ j ∈ u, Ordered i.concurrent j.concurrent) : OrderedTrace (t ++ u) := by
  refine ⟨?_, List.pairwise_append.2 ⟨ht.2, hu.2, h⟩⟩
  intro i hi
  rcases List.mem_append.1 hi with hi | hi
  · exact ht.1 i hi
  · exact hu.1 i hi

theorem orderedTrace_traceEach {body : Int → Checked (List Instance)} {count : Nat} {v : Int}
    {t : List Instance} (ht : traceEach body count v = .ok t)
    (hbody : ∀ w u, body w = .ok u → OrderedTrace u)
    (hpair : ∀ w w' u u', w < w' → body w = .ok u → body w' = .ok u' →
      ∀ i ∈ u, ∀ j ∈ u', Ordered i.concurrent j.concurrent) : OrderedTrace t := by
  induction count generalizing v t with
  | zero =>
    cases ht
    exact ⟨fun _ h => absurd h List.not_mem_nil, List.Pairwise.nil⟩
  | succ count ih =>
    obtain ⟨first, rest, hf, hr, rfl⟩ := traceEach_succ_eq_ok.1 ht
    refine (hbody v first hf).append (ih hr) ?_
    intro i hi j hj
    obtain ⟨w, u, hw, -, hu, hj⟩ := mem_traceEach hr hj
    exact hpair v w first u (by omega) hf hu i hi j hj

theorem ordered_inside {r : Range} {env : Env} {concurrent : List Iteration} {low : Nat}
    (hr : r.number = low) (hc : Ordered concurrent concurrent) (hlt : ∀ a ∈ concurrent, a.loop < low)
    (v w : Int) : Ordered (r.inside env concurrent v) (r.inside env concurrent w) := by
  intro a ha b hb hab
  rcases mem_inside ha with ha | rfl <;> rcases mem_inside hb with hb | rfl
  · exact hc a ha b hb hab
  · have := hlt a ha
    simp only at hab
    omega
  · have := hlt b hb
    simp only at hab
    omega
  · exact Env.precedes_refl env

mutual

theorem orderedTrace_traceNode {env : Env} {concurrent : List Iteration} {low high : Nat} (n : Node)
    (hn : InRange low high n) (hc : Ordered concurrent concurrent) (hlt : ∀ a ∈ concurrent, a.loop < low)
    {t : List Instance} (ht : traceNode env concurrent n = .ok t) : OrderedTrace t := by
  cases n with
  | leaf st =>
    cases ht
    refine ⟨?_, List.pairwise_singleton _ _⟩
    intro i hi
    rw [List.mem_singleton.1 hi]
    exact hc
  | loop r body =>
    obtain ⟨hr, hbody⟩ := hn
    have hlt' (v : Int) : ∀ a ∈ r.inside env concurrent v, a.loop < low + 1 := by
      intro a ha
      rcases mem_inside ha with ha | rfl
      · exact Nat.lt_succ_of_lt (hlt a ha)
      · simp only
        omega
    obtain ⟨lower, upper, -, ht⟩ := traceNode_loop_eq_ok.1 ht
    apply orderedTrace_traceEach ht
    · intro v u hu
      exact orderedTrace_traceNodes body hbody (ordered_inside hr hc hlt v v) (hlt' v) hu
    · intro v w u u' hvw hu hu' i hi j hj a ha b hb hab
      -- One loop cannot be both around this one and inside it; inside it the values `v` and `w` decide.
      rcases placed_of_traceNodes body hbody hu hi ha with ha | ⟨halo, hahi, hasuffix⟩ <;>
        rcases placed_of_traceNodes body hbody hu' hj hb with hb | ⟨hblo, hbhi, hbsuffix⟩
      · exact ordered_inside hr hc hlt v w a ha b hb hab
      · have := hlt' v a ha
        omega
      · have := hlt' w b hb
        omega
      · exact Env.precedes_of_suffix hvw hasuffix hbsuffix

theorem orderedTrace_traceNodes {env : Env} {concurrent : List Iteration} {low high : Nat} (ns : List Node)
    (hns : InRangeAll low high ns) (hc : Ordered concurrent concurrent) (hlt : ∀ a ∈ concurrent, a.loop < low)
    {t : List Instance} (ht : traceNodes env concurrent ns = .ok t) : OrderedTrace t := by
  cases ns with
  | nil =>
    cases ht
    exact ⟨fun _ h => absurd h List.not_mem_nil, List.Pairwise.nil⟩
  | cons n ns =>
    obtain ⟨mid, hn, hns⟩ := hns
    obtain ⟨first, rest, hf, hr, rfl⟩ := traceNodes_cons_eq_ok.1 ht
    have hle := InRange.le n hn
    refine (orderedTrace_traceNode n hn hc hlt hf).append
      (orderedTrace_traceNodes ns hns hc (fun a ha => Nat.lt_of_lt_of_le (hlt a ha) hle) hr) ?_
    -- The loops of the first node have other numbers than those of the rest.
    intro i hi j hj a ha b hb hab
    rcases placed_of_traceNode n hn hf hi ha with ha | ⟨halo, hahi, -⟩ <;>
      rcases placed_of_traceNodes ns hns hr hj hb with hb | ⟨hblo, hbhi, -⟩
    · exact hc a ha b hb hab
    · have := hlt a ha
      omega
    · have := hlt b hb
      omega
    · omega

end

end Kernel

namespace Numbering

mutual

theorem inRange_node {p : Program} {scope : Scope} {next next' : Nat} (n : LoopNest.Node) {k : Kernel.Node}
    (h : node p scope next n = .ok (k, next')) : Kernel.InRange next next' k := by
  cases n with
  | leaf l =>
    obtain ⟨st, -, rfl, rfl⟩ := node_leaf_eq_ok h
    rfl
  | loop hd body =>
    obtain ⟨r, ks, hr, hb, rfl⟩ := node_loop_eq_ok h
    exact ⟨hr.number, inRange_nodes body hb⟩

theorem inRange_nodes {p : Program} {scope : Scope} {next next' : Nat} (ns : List LoopNest.Node)
    {ks : List Kernel.Node} (h : nodes p scope next ns = .ok (ks, next')) :
    Kernel.InRangeAll next next' ks := by
  cases ns with
  | nil => cases h; rfl
  | cons n ns =>
    obtain ⟨k, mid, ks, hn, hns, rfl⟩ := nodes_cons_eq_ok h
    exact ⟨mid, inRange_node n hn, inRange_nodes ns hns⟩

end

end Numbering

namespace Kernel

theorem inRangeAll_of_ofTree {p : Program} {roots : List LoopNest.Node} {k : Kernel}
    (hk : ofTree p roots = .ok k) : InRangeAll 0 k.loops k.body := by
  obtain ⟨⟨body, loops⟩, hb, hk⟩ := bind_eq_ok.1 hk
  cases hk
  exact Numbering.inRange_nodes roots hb

theorem orderedTrace_of_ofTree {p : Program} {roots : List LoopNest.Node} {k : Kernel}
    (hk : ofTree p roots = .ok k) {t : List Instance} (ht : k.trace = .ok t) : OrderedTrace t :=
  orderedTrace_traceNodes k.body (inRangeAll_of_ofTree hk) (fun _ h => absurd h List.not_mem_nil)
    (fun _ h => absurd h List.not_mem_nil) ht

theorem loop_lt_of_ofTree {p : Program} {roots : List LoopNest.Node} {k : Kernel}
    (hk : ofTree p roots = .ok k) {t : List Instance} (ht : k.trace = .ok t) {i : Instance} (hi : i ∈ t)
    {a : Iteration} (ha : a ∈ i.concurrent) : a.loop < k.loops := by
  rcases placed_of_traceNodes k.body (inRangeAll_of_ofTree hk) ht hi ha with h | h
  · exact absurd h List.not_mem_nil
  · exact h.2.1

end Kernel

end LoopNest

import LoopNest.Search.Basic

namespace LoopNest

namespace Nest

instance : Std.TransCmp compare :=
  inferInstanceAs (Std.TransCmp (compareLex (compareOn fun n => totalOrder n.costOrInfinity) (compareOn depth)))

variable {b n : Nest} {ns ms : List Nest}

theorem totalOrder_le_of_compare (h : (compare b n).isLE) :
    totalOrder b.costOrInfinity ≤ totalOrder n.costOrInfinity := by
  have hcost := (Ordering.isLE_then_iff_and.1 h).1
  exact Std.isLE_compare.1 hcost

theorem isLE_compare (hcost : totalOrder b.costOrInfinity ≤ totalOrder n.costOrInfinity)
    (hdepth : b.depth ≤ n.depth) : (compare b n).isLE :=
  Ordering.isLE_then_iff_and.2 ⟨Std.isLE_compare.2 hcost, Or.inr (Std.isLE_compare.2 hdepth)⟩

theorem isLT_compare (hcost : totalOrder b.costOrInfinity < totalOrder n.costOrInfinity) : (compare b n).isLT := by
  have hlt : Ord.compare (totalOrder b.costOrInfinity) (totalOrder n.costOrInfinity) = .lt :=
    Std.compare_eq_lt.2 hcost
  rw [compare, hlt]
  rfl

def FirstLeast (b : Nest) (ns : List Nest) : Prop :=
  ∃ before after, ns = before ++ b :: after ∧ (∀ n ∈ before, (compare b n).isLT) ∧
    ∀ n ∈ after, (compare b n).isLE

namespace FirstLeast

theorem singleton (b : Nest) : FirstLeast b [b] := ⟨[], [], rfl, nofun, nofun⟩

theorem mem (h : FirstLeast b ns) : b ∈ ns := by
  obtain ⟨before, after, rfl, -, -⟩ := h
  simp

theorem isLE (h : FirstLeast b ns) (hn : n ∈ ns) : (compare b n).isLE := by
  obtain ⟨before, after, rfl, hbefore, hafter⟩ := h
  rcases List.mem_append.1 hn with hn | hn
  · rw [Ordering.isLT_iff_eq_lt.1 (hbefore n hn)]
    rfl
  · rcases List.mem_cons.1 hn with rfl | hn
    · exact Std.ReflCmp.isLE_rfl
    · exact hafter n hn

theorem concat (h : FirstLeast b ns) (n : Nest) :
    FirstLeast (if (compare n b).isLT then n else b) (ns ++ [n]) := by
  split
  · next hlt =>
    have hlt' := Ordering.isLT_iff_eq_lt.1 hlt
    refine ⟨ns, [], rfl, fun m hm => ?_, nofun⟩
    exact Ordering.isLT_iff_eq_lt.2 (Std.TransCmp.lt_of_lt_of_isLE hlt' (h.isLE hm))
  · next hge =>
    obtain ⟨before, after, rfl, hbefore, hafter⟩ := h
    refine ⟨before, after ++ [n], by simp, hbefore, fun m hm => ?_⟩
    rcases List.mem_append.1 hm with hm | hm
    · exact hafter m hm
    · cases List.mem_singleton.1 hm
      have hswap : compare b n = (compare n b).swap := Std.OrientedCmp.eq_swap
      rw [hswap]
      cases hc : compare n b with
      | lt => simp [hc] at hge
      | eq => rfl
      | gt => rfl

theorem foldl {considered : List Nest} {m : Nest} (hm : m.FirstLeast considered) (ns : List Nest) :
    (ns.foldl (fun m x => if (compare x m).isLT then x else m) m).FirstLeast (considered ++ ns) := by
  induction ns generalizing considered m with
  | nil => simpa using hm
  | cons x ns ih =>
    have hrest := ih (hm.concat x)
    rwa [List.append_assoc] at hrest

theorem not_isLT (h : b.FirstLeast ns) (hn : n ∈ ns) : ¬ (compare n b).isLT := by
  intro hlt
  have hle := h.isLE hn
  have hswap : compare b n = (compare n b).swap := Std.OrientedCmp.eq_swap
  rw [hswap, Ordering.isLT_iff_eq_lt.1 hlt] at hle
  cases hle

theorem cons_self (h : ∀ n ∈ ns, (compare b n).isLE) : b.FirstLeast (b :: ns) := ⟨[], ns, rfl, nofun, h⟩

theorem cons_of_lt (h : b.FirstLeast ns) (hn : (compare b n).isLT) : b.FirstLeast (n :: ns) := by
  obtain ⟨before, after, rfl, hbefore, hafter⟩ := h
  exact ⟨n :: before, after, rfl, List.forall_mem_cons.2 ⟨hn, hbefore⟩, hafter⟩

theorem unique (h : b.FirstLeast ns) (h' : n.FirstLeast ns) : b = n := by
  have ⟨before, after, hsplit, hbefore, _⟩ := h
  have ⟨before', after', hsplit', hbefore', _⟩ := h'
  have hsame := hsplit.symm.trans hsplit'
  rcases List.append_eq_append_iff.1 hsame with ⟨between, hlonger, hrest⟩ | ⟨between, hlonger, hrest⟩
  · cases between with
    | nil => exact (List.cons.inj hrest).1
    | cons m between =>
      cases hrest
      exact absurd (hbefore' b (by simp [hlonger])) (h.not_isLT h'.mem)
  · cases between with
    | nil => exact (List.cons.inj hrest).1.symm
    | cons m between =>
      cases hrest
      exact absurd (hbefore n (by simp [hlonger])) (h'.not_isLT h.mem)

end FirstLeast

theorem firstLeast_of_least? (h : least? ns = some b) : b.FirstLeast ns := by
  cases ns with
  | nil => cases h
  | cons n ns =>
    cases h
    exact (FirstLeast.singleton n).foldl ns

end Nest

end LoopNest

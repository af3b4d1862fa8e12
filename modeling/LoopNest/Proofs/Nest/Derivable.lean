import LoopNest.Proofs.Nest.Neighbors
import Mathlib.Data.Set.Finite.Lattice

namespace LoopNest

namespace Nest

variable {c : Context} {n m : Nest} {t : Transformation}

theorem mem_deriveEach_of_derive {ts : List Transformation} {ms : List Nest} (h : n.deriveEach c ts = .ok ms)
    (ht : t ∈ ts) (hm : n.derive c t = .ok m) : m ∈ ms := by
  induction ts generalizing ms with
  | nil => cases ht
  | cons u ts ih =>
    obtain ⟨child, rest, hchild, hrest, rfl⟩ := bind₂_eq_ok.1 h
    rcases List.mem_cons.1 ht with rfl | ht
    · rw [derive?, hm] at hchild
      cases hchild
      exact List.mem_append_left _ (List.mem_singleton_self m)
    · exact List.mem_append_right _ (ih hrest ht)

theorem exists_neighbor {n' : Nest} (h : n'.roots = n.roots) {ns : List Nest} (hns : n'.neighbors c = .ok ns)
    {ts : List Transformation} (hts : n.candidates c = .ok ts) (ht : t ∈ ts) (hm : n.derive c t = .ok m) :
    ∃ m' ∈ ns, m'.roots = m.roots := by
  obtain ⟨ts', hts', hns⟩ := bind_eq_ok.1 hns
  rw [candidates, h] at hts'
  cases hts.symm.trans hts'
  have hm' : n'.derive c t = .ok { m with applied := n'.applied ++ [t] } := by
    rw [derive_sameTree h, hm]
    rfl
  exact ⟨_, mem_deriveEach_of_derive hns ht hm', rfl⟩

end Nest

inductive Derives (c : Context) (initial : Nest) : Nest → Prop where
  | start : Derives c initial initial
  | next {n m : Nest} {ts : List Transformation} {t : Transformation} : Derives c initial n →
      n.candidates c = .ok ts → t ∈ ts → n.derive c t = .ok m → Derives c initial m

namespace Derives

variable {c : Context} {initial n m : Nest}

theorem of_neighbors {ns : List Nest} (hn : Derives c initial n) (hns : n.neighbors c = .ok ns) (hm : m ∈ ns) :
    Derives c initial m := by
  obtain ⟨ts, hts, t, ht, hderive⟩ := Nest.mem_neighbors hns hm
  exact hn.next hts ht hderive

theorem depth_le (h : Derives c initial n) : initial.depth ≤ n.depth := by
  induction h with
  | start => exact Nat.le_refl _
  | next _ _ _ hderive ih =>
    rw [Nest.depth_derive hderive]
    omega

theorem finite_next (c : Context) (n : Nest) :
    {m | ∃ ts, n.candidates c = .ok ts ∧ ∃ t ∈ ts, n.derive c t = .ok m}.Finite := by
  cases hts : n.candidates c with
  | error f =>
    apply Set.finite_empty.subset
    rintro m ⟨ts, hm, -⟩
    cases hm
  | ok ts =>
    apply (List.finite_toSet (ts.filterMap fun t => (n.derive c t).toOption)).subset
    rintro m ⟨_, ⟨⟩, t, ht, hderive⟩
    exact List.mem_filterMap.2 ⟨t, ht, by rw [hderive]; rfl⟩

theorem finite_of_depth_le (c : Context) (initial : Nest) (d : Nat) :
    {n | Derives c initial n ∧ n.depth ≤ d}.Finite := by
  induction d with
  | zero =>
    apply (Set.finite_singleton initial).subset
    rintro n ⟨hn, hdepth⟩
    cases hn with
    | start => exact Set.mem_singleton _
    | next _ _ _ hderive =>
      rw [Nest.depth_derive hderive] at hdepth
      omega
  | succ d ih =>
    apply ((ih.biUnion fun n _ => finite_next c n).insert initial).subset
    rintro m ⟨hm, hdepth⟩
    cases hm with
    | start => exact Set.mem_insert _ _
    | next hn hts ht hderive =>
      right
      rw [Nest.depth_derive hderive] at hdepth
      exact Set.mem_biUnion ⟨hn, by omega⟩ ⟨_, hts, _, ht, hderive⟩

theorem exists_structures (c : Context) (initial : Nest) (d : Nat) : ∃ keys : Finset String,
    ∀ n, Derives c initial n → n.depth ≤ d → ∀ key, n.structureText c = .ok key → key ∈ keys := by
  have hfinite := (finite_of_depth_le c initial d).image (Nest.structureText c)
  have hkeys := hfinite.preimage (f := Except.ok) fun _ _ _ _ h => Except.ok.inj h
  refine ⟨hkeys.toFinset, fun n hn hdepth key hkey => ?_⟩
  exact hkeys.mem_toFinset.2 ⟨n, ⟨hn, hdepth⟩, hkey⟩

end Derives

end LoopNest

import LoopNest.Nest.Candidates
import LoopNest.Proofs.Nest.Soundness

namespace LoopNest.Nest

variable {c : Context} {n m : Nest} {t : Transformation}

theorem depth_derive (h : n.derive c t = .ok m) : m.depth = n.depth + 1 := by
  simp [depth, applied_derive h]

theorem derive?_eq_some (h : n.derive? c t = .ok (some m)) : n.derive c t = .ok m := by
  unfold derive? at h
  split at h
  · next hm =>
    cases h
    exact hm
  · cases h
  · cases h

theorem mem_deriveEach {ts : List Transformation} {ms : List Nest} (h : n.deriveEach c ts = .ok ms) (hm : m ∈ ms) :
    ∃ t ∈ ts, n.derive c t = .ok m := by
  induction ts generalizing ms with
  | nil =>
    cases h
    cases hm
  | cons t ts ih =>
    obtain ⟨child, rest, hchild, hrest, rfl⟩ := bind₂_eq_ok.1 h
    rcases List.mem_append.1 hm with hm | hm
    · cases child with
      | none => cases hm
      | some child =>
        cases List.mem_singleton.1 hm
        exact ⟨t, List.mem_cons_self, derive?_eq_some hchild⟩
    · obtain ⟨t', ht', hm⟩ := ih hrest hm
      exact ⟨t', List.mem_cons_of_mem _ ht', hm⟩

theorem mem_neighbors {ns : List Nest} (h : n.neighbors c = .ok ns) (hm : m ∈ ns) :
    ∃ ts, n.candidates c = .ok ts ∧ ∃ t ∈ ts, n.derive c t = .ok m := by
  obtain ⟨ts, hts, h⟩ := bind_eq_ok.1 h
  exact ⟨ts, hts, mem_deriveEach h hm⟩

section SameTree

variable {n' : Nest}

theorem structureText_sameTree (h : n'.roots = n.roots) : n'.structureText c = n.structureText c := by
  rw [structureText, structureText, text, text, h]

theorem derive_sameTree (h : n'.roots = n.roots) (t : Transformation) :
    n'.derive c t = (n.derive c t).map fun m => { m with applied := n'.applied ++ [t] } := by
  unfold derive
  rw [h]
  cases (t.applyTo c.program n.roots).mapRefusal DeriveError.transform with
  | error e => rfl
  | ok roots =>
    simp only [ok_bind]
    cases (c.checkLegal roots).mapRefusal DeriveError.illegal with
    | error e => rfl
    | ok u => rfl

theorem derive?_sameTree (h : n'.roots = n.roots) {child : Option Nest} (hchild : n.derive? c t = .ok child) :
    n'.derive? c t = .ok (child.map fun m => { m with applied := n'.applied ++ [t] }) := by
  unfold derive? at hchild ⊢
  rw [derive_sameTree h]
  split at hchild
  · next hm =>
    cases hchild
    rw [hm]
    rfl
  · next hm =>
    cases hchild
    rw [hm]
    rfl
  · cases hchild

theorem deriveEach_sameTree (h : n'.roots = n.roots) {ts : List Transformation} {ms : List Nest}
    (hms : n.deriveEach c ts = .ok ms) :
    ∃ ms', n'.deriveEach c ts = .ok ms' ∧ ms'.map Nest.roots = ms.map Nest.roots := by
  induction ts generalizing ms with
  | nil =>
    cases hms
    exact ⟨[], rfl, rfl⟩
  | cons t ts ih =>
    obtain ⟨child, rest, hchild, hrest, rfl⟩ := bind₂_eq_ok.1 hms
    obtain ⟨rest', hrest', hroots⟩ := ih hrest
    refine ⟨_, bind₂_eq_ok.2 ⟨_, rest', derive?_sameTree h hchild, hrest', rfl⟩, ?_⟩
    rw [List.map_append, List.map_append, hroots]
    cases child with
    | none => rfl
    | some m => rfl

theorem neighbors_sameTree (h : n'.roots = n.roots) {ns : List Nest} (hns : n.neighbors c = .ok ns) :
    ∃ ns', n'.neighbors c = .ok ns' ∧ ns'.map Nest.roots = ns.map Nest.roots := by
  obtain ⟨ts, hts, hns⟩ := bind_eq_ok.1 hns
  obtain ⟨ns', hns', hroots⟩ := deriveEach_sameTree h hns
  refine ⟨ns', ?_, hroots⟩
  rw [neighbors, candidates, h]
  exact bind_eq_ok.2 ⟨ts, hts, hns'⟩

theorem deriveEach_priced (x : Option Float) (ts : List Transformation) :
    ({ n with cost := x } : Nest).deriveEach c ts = n.deriveEach c ts := by
  induction ts with
  | nil => rfl
  | cons t ts ih =>
    rw [deriveEach, deriveEach, ih]
    rfl

theorem neighbors_priced (x : Option Float) : ({ n with cost := x } : Nest).neighbors c = n.neighbors c := by
  unfold neighbors
  rw [show ({ n with cost := x } : Nest).candidates c = n.candidates c from rfl]
  simp only [deriveEach_priced]

end SameTree

end LoopNest.Nest

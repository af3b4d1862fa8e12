import LoopNest.Nest.Candidates
import LoopNest.Proofs.Tree.Lookup
import LoopNest.Proofs.Tree.Nest

namespace LoopNest

open Node

namespace Candidates

section Walk

theorem forNodes_middle {above : Bool} {pre post : List Node} {n : Node} {ts : List Transformation}
    (h : forNodes above (pre ++ n :: post) = .ok ts) : ∃ own, forNode above n = .ok own ∧ own ⊆ ts := by
  induction pre generalizing ts with
  | nil =>
    obtain ⟨own, rest, hown, -, rfl⟩ := bind₂_eq_ok.1 h
    exact ⟨own, hown, List.subset_append_left _ _⟩
  | cons m pre ih =>
    obtain ⟨before, rest, -, hrest, rfl⟩ := bind₂_eq_ok.1 h
    obtain ⟨own, hown, hsub⟩ := ih hrest
    exact ⟨own, hown, List.Subset.trans hsub (List.subset_append_right _ _)⟩

theorem exists_forLoop {above : Bool} {ns : List Node} {ts : List Transformation} (h : forNodes above ns = .ok ts)
    {hd : Header} {body : List Node} {path : Path} {hs : List Header} (ho : Occurs (.loop hd body) ns path hs) :
    ∃ own, forLoop (above || hs.any fun g => g.tags.parallel) hd body = .ok own ∧ own ⊆ ts := by
  induction ho generalizing above ts with
  | here pre post =>
    obtain ⟨all, hall, hsub⟩ := forNodes_middle h
    obtain ⟨own, rest, hown, -, rfl⟩ := bind₂_eq_ok.1 hall
    refine ⟨own, ?_, List.Subset.trans (List.subset_append_left _ _) hsub⟩
    rw [List.any_nil, Bool.or_false]
    exact hown
  | under g pre post hb ih =>
    obtain ⟨all, hall, hsub⟩ := forNodes_middle h
    obtain ⟨before, rest, -, hrest, rfl⟩ := bind₂_eq_ok.1 hall
    obtain ⟨own, hown, hmem⟩ := ih hrest
    refine ⟨own, ?_, List.Subset.trans hmem (List.Subset.trans (List.subset_append_right _ _) hsub)⟩
    rw [List.any_cons, ← Bool.or_assoc]
    exact hown

mutual

theorem occurs_of_mem_forNode {above : Bool} (n : Node) (post : List Node) {ts : List Transformation}
    (h : forNode above n = .ok ts) {t : Transformation} (ht : t ∈ ts) :
    ∃ hd body path hs own, Occurs (.loop hd body) (n :: post) path hs ∧
      forLoop (above || hs.any fun g => g.tags.parallel) hd body = .ok own ∧ t ∈ own := by
  cases n with
  | leaf l =>
    cases h
    cases ht
  | loop g inside =>
    obtain ⟨own, rest, hown, hrest, rfl⟩ := bind₂_eq_ok.1 h
    rcases List.mem_append.1 ht with ht | ht
    · refine ⟨g, inside, [0], [], own, .here [] post, ?_, ht⟩
      rw [List.any_nil, Bool.or_false]
      exact hown
    · obtain ⟨hd, body, path, hs, own, ho, hown, ht⟩ := occurs_of_mem_forNodes inside hrest ht
      refine ⟨hd, body, 0 :: path, g :: hs, own, .under g [] post ho, ?_, ht⟩
      rw [List.any_cons, ← Bool.or_assoc]
      exact hown

theorem occurs_of_mem_forNodes {above : Bool} (ns : List Node) {ts : List Transformation}
    (h : forNodes above ns = .ok ts) {t : Transformation} (ht : t ∈ ts) :
    ∃ hd body path hs own, Occurs (.loop hd body) ns path hs ∧
      forLoop (above || hs.any fun g => g.tags.parallel) hd body = .ok own ∧ t ∈ own := by
  cases ns with
  | nil =>
    cases h
    cases ht
  | cons n ns =>
    obtain ⟨first, rest, hfirst, hrest, rfl⟩ := bind₂_eq_ok.1 h
    rcases List.mem_append.1 ht with ht | ht
    · exact occurs_of_mem_forNode n ns hfirst ht
    · obtain ⟨hd, body, path, hs, own, ho, hown, ht⟩ := occurs_of_mem_forNodes ns hrest ht
      obtain ⟨i, path, rfl⟩ := List.exists_cons_of_ne_nil ho.ne_nil
      exact ⟨hd, body, _, hs, own, ho.cons n, hown, ht⟩

end

mutual

theorem occurs_of_forNode_error {above : Bool} (n : Node) (post : List Node) {f : Fault}
    (h : forNode above n = .error f) :
    ∃ hd body path hs, Occurs (.loop hd body) (n :: post) path hs ∧ hd.fixedExtent? = .error f := by
  cases n with
  | leaf l => cases h
  | loop g inside =>
    rcases bind_eq_error.1 h with hown | ⟨own, -, h⟩
    · rcases bind_eq_error.1 hown with hextent | ⟨extent, -, hown⟩
      · exact ⟨g, inside, _, [], .here [] post, hextent⟩
      · cases hown
    · rcases bind_eq_error.1 h with hrest | ⟨rest, -, h⟩
      · obtain ⟨hd, body, path, hs, ho, hextent⟩ := occurs_of_forNodes_error inside hrest
        exact ⟨hd, body, _, _, .under g [] post ho, hextent⟩
      · cases h

theorem occurs_of_forNodes_error {above : Bool} (ns : List Node) {f : Fault} (h : forNodes above ns = .error f) :
    ∃ hd body path hs, Occurs (.loop hd body) ns path hs ∧ hd.fixedExtent? = .error f := by
  cases ns with
  | nil => cases h
  | cons n ns =>
    rcases bind_eq_error.1 h with hfirst | ⟨first, -, h⟩
    · exact occurs_of_forNode_error n ns hfirst
    · rcases bind_eq_error.1 h with hrest | ⟨rest, -, h⟩
      · obtain ⟨hd, body, path, hs, ho, hextent⟩ := occurs_of_forNodes_error ns hrest
        obtain ⟨i, path, rfl⟩ := List.exists_cons_of_ne_nil ho.ne_nil
        exact ⟨hd, body, _, hs, ho.cons n, hextent⟩
      · cases h

end

end Walk

section Proposed

variable {above : Bool} {hd : Header} {body : List Node} {extent : Option Int} {t : Transformation}

theorem mem_tiles : t ∈ tiles hd extent ↔ ∃ n, extent = some n ∧ hd.lower.constant?.isSome ∧
    ∃ factor ∈ tileGrid, (factor : Int) < n ∧ t = .tile hd.dim factor := by
  cases extent with
  | none => simp [tiles]
  | some n =>
    rw [tiles]
    split
    · next hlower => simp [hlower, and_assoc, eq_comm]
    · next hlower => simp [hlower]

theorem mem_interchanges :
    t ∈ interchanges hd body ↔ ∃ g ∈ soleLoopsIn body, g.hasTags = false ∧ t = .interchange hd.dim g.dim := by
  simp only [interchanges, List.mem_map, List.mem_filter, Bool.not_eq_true', and_assoc]
  exact exists_congr fun g => and_congr_right fun _ => and_congr_right fun _ => eq_comm

theorem mem_innermost : t ∈ innermost hd extent ↔ ∃ n, extent = some n ∧
    ((∃ factor ∈ unrollGrid, (factor : Int) ≤ n ∧ t = .unroll hd.dim factor) ∨
      ∃ width ∈ widthGrid, (width : Int) ≤ n ∧ t = .vectorize hd.dim width) := by
  cases extent with
  | none => simp [innermost]
  | some n => simp [innermost, and_assoc, eq_comm]

theorem mem_parallelizations : t ∈ parallelizations above hd body ↔ (above = false ∧ hd.tags.parallel = false ∧
    hd.tags.vectorize = none ∧ containsParallel body = false) ∧ t = .parallelize hd.dim := by
  rw [parallelizations]
  split
  · next h =>
    simp only [Bool.and_eq_true, Bool.not_eq_true', Option.isNone_iff_eq_none] at h
    simp [h]
  · next h =>
    simp only [Bool.and_eq_true, Bool.not_eq_true', Option.isNone_iff_eq_none, and_assoc] at h
    simp [h]

theorem mem_forLoop {own : List Transformation} (h : forLoop above hd body = .ok own) :
    ∃ extent, hd.fixedExtent? = .ok extent ∧ ∀ t, t ∈ own ↔
      (hd.hasTags = false ∧ (t ∈ tiles hd extent ∨ t ∈ interchanges hd body ∨
        onlyLeaves body = true ∧ t ∈ innermost hd extent)) ∨ t ∈ parallelizations above hd body := by
  obtain ⟨extent, hextent, h⟩ := bind_eq_ok.1 h
  cases h
  refine ⟨extent, hextent, fun t => ?_⟩
  rw [List.mem_append]
  apply or_congr_left
  split
  · next htags => simp [htags]
  · next htags =>
    cases onlyLeaves body <;> simp [htags]

variable {own : List Transformation} (h : forLoop above hd body = .ok own)
include h

theorem tile_mem_forLoop {dim : String} {factor : Nat} : .tile dim factor ∈ own ↔ dim = hd.dim ∧
    factor ∈ tileGrid ∧ hd.hasTags = false ∧ hd.lower.constant?.isSome ∧
      ∃ extent : Int, hd.fixedExtent? = .ok (some extent) ∧ (factor : Int) < extent := by
  obtain ⟨extent, hextent, hmem⟩ := mem_forLoop h
  simp only [hmem, mem_tiles, mem_interchanges, mem_innermost, mem_parallelizations, hextent, Except.ok.injEq]
  grind

theorem parallelize_mem_forLoop {dim : String} : .parallelize dim ∈ own ↔ dim = hd.dim ∧ above = false ∧
    hd.tags.parallel = false ∧ hd.tags.vectorize = none ∧ containsParallel body = false := by
  obtain ⟨extent, hextent, hmem⟩ := mem_forLoop h
  simp only [hmem, mem_tiles, mem_interchanges, mem_innermost, mem_parallelizations]
  grind

theorem interchange_mem_forLoop (htags : hd.hasTags = false) {g : Header} (hg : g ∈ soleLoopsIn body)
    (hgtags : g.hasTags = false) : .interchange hd.dim g.dim ∈ own := by
  obtain ⟨extent, hextent, hmem⟩ := mem_forLoop h
  exact (hmem _).2 (.inl ⟨htags, .inr (.inl (mem_interchanges.2 ⟨g, hg, hgtags, rfl⟩))⟩)

theorem innermost_subset_forLoop (htags : hd.hasTags = false) (hbody : onlyLeaves body = true)
    (hextent : hd.fixedExtent? = .ok extent) : innermost hd extent ⊆ own := by
  obtain ⟨extent', hextent', hmem⟩ := mem_forLoop h
  cases hextent.symm.trans hextent'
  exact fun t ht => (hmem t).2 (.inl ⟨htags, .inr (.inr ⟨hbody, ht⟩)⟩)

theorem fuse_not_mem_forLoop {first second dim : String} : .fuse first second dim ∉ own := by
  obtain ⟨extent, hextent, hmem⟩ := mem_forLoop h
  simp [hmem, mem_tiles, mem_interchanges, mem_innermost, mem_parallelizations]

end Proposed

theorem soleLoopsIn_nest (hs : List Header) (hd : Header) (body : List Node) :
    soleLoopsIn (nest hs [.loop hd body]) = hs ++ hd :: soleLoopsIn body := by
  induction hs with
  | nil => rfl
  | cons g hs ih => rw [nest, soleLoopsIn, soleLoops, ih, List.cons_append]

end Candidates

end LoopNest

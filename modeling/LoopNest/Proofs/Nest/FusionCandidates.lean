import LoopNest.Proofs.Nest.Faults
import LoopNest.Proofs.Nest.Proposals
import LoopNest.Proofs.Transform.Involution

namespace LoopNest

open Node

structure Joins (p : Program) (roots : List Node) (first second dim : String) (a b : Nat)
    (aPath bPath dimPath : Path) : Prop where
  first : p.computationPosition? first = some a
  second : p.computationPosition? second = some b
  distinct : a ≠ b
  firstLeaf : leafPath? roots a = some aPath
  secondLeaf : leafPath? roots b = some bPath
  sharedLoop : loopPath? roots dim = some dimPath
  encloses : dimPath <+: aPath ∧ dimPath.length < aPath.length
  deep : dimPath.length < bPath.length
  apart : ¬ dimPath <+: bPath

def IsJoin (p : Program) (roots : List Node) (t : Transformation) : Prop :=
  ∃ first second dim a b aPath bPath dimPath, t = .fuse first second dim ∧
    Joins p roots first second dim a b aPath bPath dimPath

def Clashes (t : Transformation) : Failure TransformError → Prop
  | .fault f => f = .overflow
  | .refused e => e = .notApplicable t .tagged ∨ ∃ kept moved, e = .notApplicable t (.boundsDiffer kept moved)

section Refusals

theorem checkMatched_clashes (t : Transformation) (m : String → Affine) (pairs : List (Header × Header)) :
    FailsOnly (Clashes t) (checkMatched t m pairs) := by
  induction pairs with
  | nil => exact .ok _
  | cons pair rest ih =>
    obtain ⟨kept, moved⟩ := pair
    rw [checkMatched]
    split
    · exact .error (.inl rfl)
    · have hsame : FailsOnly (Clashes t) (liftM (sameHeader m moved kept) : Transformed Bool) :=
        FailsOnly.lift (sameHeader_failsOnly m moved kept)
      apply hsame.bind
      intro same _
      split
      · exact ih
      · exact .error (.inr ⟨_, _, rfl⟩)

theorem exists_partsAt {level : Nat} {path path' : Path} (hpath : level < path.length) (hpath' : level < path'.length)
    (hne : path.take (level + 1) ≠ path'.take (level + 1)) : ∃ depth, partsAt level path path' = some depth := by
  induction level generalizing path path' with
  | zero =>
    obtain ⟨i, path, rfl⟩ := List.exists_cons_of_ne_nil (List.ne_nil_of_length_pos hpath)
    obtain ⟨j, path', rfl⟩ := List.exists_cons_of_ne_nil (List.ne_nil_of_length_pos hpath')
    have hij : i ≠ j := by simpa using hne
    exact ⟨0, by rw [partsAt, if_neg hij]⟩
  | succ level ih =>
    obtain ⟨i, path, rfl⟩ := List.exists_cons_of_ne_nil (List.ne_nil_of_length_pos (Nat.zero_lt_of_lt hpath))
    obtain ⟨j, path', rfl⟩ := List.exists_cons_of_ne_nil (List.ne_nil_of_length_pos (Nat.zero_lt_of_lt hpath'))
    by_cases hij : i = j
    · subst hij
      simp only [List.length_cons, Nat.add_lt_add_iff_right] at hpath hpath'
      obtain ⟨depth, hdepth⟩ := ih hpath hpath' (by simpa [List.take_succ_cons] using hne)
      exact ⟨depth + 1, by rw [partsAt, if_pos rfl, hdepth]; rfl⟩
    · exact ⟨0, by rw [partsAt, if_neg hij]⟩

theorem prefix_of_mem_leaves {p : Program} {roots : List Node} (hsound : Sound p roots) {n : Node} {path : Path}
    {hs : List Header} (ho : Occurs n roots path hs) {l : Leaf} (hl : l ∈ n.leaves) :
    ∃ path', leafPath? roots l.computation = some path' ∧ path <+: path' := by
  cases n with
  | leaf l' =>
    obtain rfl := List.mem_singleton.1 hl
    exact ⟨path, ho.leafPath?_eq hsound.leaves, List.prefix_refl path⟩
  | loop hd body =>
    obtain ⟨rest, hrest⟩ := exists_leafPath? (List.mem_map_of_mem (f := Leaf.computation) hl)
    obtain ⟨l', ks, hc, hb⟩ := occurs_of_leafPath? hrest
    rw [← hc]
    exact ⟨path ++ rest, (ho.append hb).leafPath?_eq hsound.leaves, List.prefix_append _ _⟩

variable {p : Program} {roots : List Node} {first second dim : String} {a b : Nat} {aPath bPath dimPath : Path}

namespace Joins

variable (h : Joins p roots first second dim a b aPath bPath dimPath)
include h

theorem mem_detach (hsound : Sound p roots) {n : Node} {hs : List Header}
    (ho : Occurs n roots (bPath.take (dimPath.length + 1)) hs) :
    a ∈ (leavesAll (detach (bPath.take (dimPath.length + 1)) roots)).map Leaf.computation := by
  obtain ⟨l, ks, rfl, hl⟩ := occurs_of_leafPath? h.firstLeaf
  have hmem : l ∈ leavesAll roots := hl.leaves_subset List.mem_cons_self
  rcases List.mem_append.1 (ho.removes.leaves_perm.mem_iff.1 hmem) with hn | hrest
  · obtain ⟨path, hpath, hprefix⟩ := prefix_of_mem_leaves hsound ho hn
    cases hpath.symm.trans h.firstLeaf
    have hlength : dimPath.length ≤ (bPath.take (dimPath.length + 1)).length := by
      rw [List.length_take]
      have := h.deep
      omega
    have hbranch := List.prefix_of_prefix_length_le h.encloses.1 hprefix hlength
    exact absurd (hbranch.trans (List.take_prefix _ _)) h.apart
  · exact List.mem_map_of_mem hrest

theorem clashes_moveBranch (hsound : Sound p roots) (m : String → Affine) (t : Transformation) (level : Nat) :
    FailsOnly (Clashes t) (moveBranch roots m first a (bPath.take (dimPath.length + 1)) level) := by
  obtain ⟨lb, ks, hlb, hleaf⟩ := occurs_of_leafPath? h.secondLeaf
  have hdeep : dimPath.length ≤ ks.length := by
    have hlength := hleaf.length_path
    have := h.deep
    omega
  obtain ⟨n, ho, -⟩ := hleaf.take hdeep
  obtain ⟨path, hpath⟩ := exists_leafPath? (h.mem_detach hsound ho)
  have hsubstitute : FailsOnly (Clashes t) (liftM (n.substitute m) : Transformed Node) :=
    FailsOnly.lift (substitute_failsOnly m n)
  simp only [moveBranch, ho.at?_eq, leafPath, hpath, Outcome.require_some, ok_bind]
  exact hsubstitute.bind fun _ _ => .ok _

theorem clashes_fuse (hsound : Sound p roots) :
    FailsOnly (Clashes (.fuse first second dim)) (fuse p roots first second dim) := by
  obtain ⟨hd, body, hs, rfl, hloop⟩ := occurs_of_loopPath? h.sharedLoop
  have hencloses := h.encloses.2
  have hdeep := h.deep
  have hlevel := hloop.length_path
  obtain ⟨depth, hparts⟩ : ∃ depth, partsAt (dimPath.length - 1) aPath bPath = some depth := by
    apply exists_partsAt (by omega) (by omega)
    rw [show dimPath.length - 1 + 1 = dimPath.length by omega, ← List.prefix_iff_eq_take.1 h.encloses.1]
    intro heq
    exact h.apart (heq ▸ List.take_prefix _ _)
  have henclosed : (decide (dimPath.length < aPath.length) && dimPath.isPrefixOf aPath) = true := by
    simp [h.encloses.2, List.isPrefixOf_iff_prefix.2 h.encloses.1]
  have hbranch : dimPath.length - 1 + 2 = dimPath.length + 1 := by omega
  simp only [fuse, h.first, h.second, leafPath, h.firstLeaf, h.secondLeaf, Outcome.require_some, ok_bind,
    if_neg h.distinct, namedLoop_of_occurs hloop hsound.dims, henclosed, Bool.not_true, Bool.false_eq_true, if_false,
    hbranch, if_neg (show ¬ bPath.length < dimPath.length + 1 by omega), hparts]
  apply FailsOnly.bind (checkMatched_clashes _ _ _)
  intro _ _
  exact h.clashes_moveBranch hsound _ _ _

end Joins

end Refusals

theorem Program.computationPosition?_name {p : Program} (hnames : (p.computations.map Computation.name).Nodup)
    {i : Nat} {c : Computation} (hc : p.computations[i]? = some c) :
    p.computationPosition? (p.computationName i) = some i := by
  obtain ⟨hi, rfl⟩ := List.getElem?_eq_some_iff.1 hc
  rw [computationPosition?, computationName, hc, position?_eq_findIdx?, List.findIdx?_eq_some_iff_getElem]
  refine ⟨hi, by simp, fun j hj hsame => ?_⟩
  have hlength : (p.computations.map Computation.name).length = p.computations.length := List.length_map _
  exact List.pairwise_iff_getElem.1 hnames j i (by omega) (by omega) hj (by simpa using hsame)

section Proposals

variable {p : Program} {roots : List Node} (hnames : (p.computations.map Computation.name).Nodup)
  (hsound : Sound p roots)

include hnames hsound in
theorem joins_of_occurs {la lb : Leaf} {path qa qb : Path} {i j k : Nat} {ka kb : List Header}
    (hoa : Occurs (.leaf la) roots (path ++ i :: qa) ka) (hob : Occurs (.leaf lb) roots (path ++ j :: qb) kb)
    (hij : i ≠ j) (hk : path.length ≤ k) (hka : k < ka.length) (hkb : k < kb.length) :
    Joins p roots (p.computationName la.computation) (p.computationName lb.computation) ka[k].dim la.computation
      lb.computation (path ++ i :: qa) (path ++ j :: qb) ((path ++ i :: qa).take (k + 1)) := by
  have hposition {l : Leaf} {path : Path} {hs : List Header} (ho : Occurs (.leaf l) roots path hs) :
      p.computationPosition? (p.computationName l.computation) = some l.computation := by
    have htidy : l.Tidy p (scope [] hs) := ho.tidy hsound.tidy
    obtain ⟨c, hc, -⟩ := htidy.computation
    exact p.computationPosition?_name hnames hc
  have hla := hoa.leafPath?_eq hsound.leaves
  have hlb := hob.leafPath?_eq hsound.leaves
  have hlengthA := hoa.length_path
  have hlengthB := hob.length_path
  obtain ⟨body, hloop⟩ := hoa.take_loop hka
  have htake : ((path ++ i :: qa).take (k + 1)).length = k + 1 := by
    rw [List.length_take]
    omega
  refine ⟨hposition hoa, hposition hob, fun hsame => ?_, hla, hlb, hloop.loopPath?_eq hsound.dims,
    ⟨List.take_prefix _ _, ?_⟩, ?_, fun hprefix => ?_⟩
  · rw [hsame] at hla
    have hpaths := Option.some.inj (hla.symm.trans hlb)
    exact hij (List.cons.inj (List.append_cancel_left hpaths)).1
  · omega
  · omega
  · -- were the loop above both, its path would lead into the branch of the second leaf
    have hshort : path ++ [i] <+: path ++ j :: qb := by
      refine List.IsPrefix.trans ?_ hprefix
      apply List.prefix_of_prefix_length_le _ (List.take_prefix _ _)
      · rw [htake, List.length_append, List.length_singleton]
        omega
      · exact (List.prefix_append_right_inj path).2 (by simp)
    exact hij (List.cons_prefix_cons.1 ((List.prefix_append_right_inj path).1 hshort)).1

def Within (roots ns : List Node) (path : Path) : Prop :=
  ∀ x q ks, Occurs x ns q ks → ∃ hs, Occurs x roots (path ++ q) hs

theorem Within.body {pre post body : List Node} {hd : Header} {path : Path}
    (h : Within roots (pre ++ .loop hd body :: post) path) : Within roots body (path ++ [pre.length]) := by
  intro x q ks ho
  rw [List.append_assoc]
  exact h _ _ _ (.under hd pre post ho)

theorem Within.exists_leaf {pre post body : List Node} {hd : Header} {path : Path}
    (h : Within roots (pre ++ .loop hd body :: post) path) {l : Leaf} (hl : l ∈ leavesAll body) :
    ∃ l' q ks, l'.computation = l.computation ∧ Occurs (.leaf l') roots (path ++ pre.length :: q) ks := by
  obtain ⟨q, hq⟩ := exists_leafPath? (List.mem_map_of_mem (f := Leaf.computation) hl)
  obtain ⟨l', ks, hc, ho⟩ := occurs_of_leafPath? hq
  obtain ⟨hs, ho⟩ := h _ _ _ (.under hd pre post ho)
  exact ⟨l', q, hs, hc, ho⟩

namespace Candidates

include hnames hsound

theorem joins_of_mem_pair {pre post : List Node} {left right : Node} {path : Path}
    (hw : Within roots (pre ++ left :: right :: post) path) {t : Transformation}
    (ht : t ∈ fusionsOfPair p roots path.length left right) :
    IsJoin p roots t := by
  cases left with
  | leaf l => simp [fusionsOfPair, isLeaf] at ht
  | loop g inside =>
    cases right with
    | leaf l => simp [fusionsOfPair, isLeaf] at ht
    | loop g' inside' =>
      simp only [fusionsOfPair, isLeaf, Bool.or_self, Bool.false_eq_true, if_false, leaves] at ht
      split at ht
      · next a b ha hb =>
        have hright : Within roots ((pre ++ [.loop g inside]) ++ .loop g' inside' :: post) path := by
          rw [List.append_assoc]
          exact hw
        obtain ⟨la, qa, ka, hla, hoa⟩ := hw.exists_leaf (List.mem_of_getLast? ha)
        obtain ⟨lb, qb, kb, hlb, hob⟩ := hright.exists_leaf (List.mem_of_mem_head? hb)
        rw [← hla, ← hlb, hoa.leafPath?_eq hsound.leaves, hob.leafPath?_eq hsound.leaves] at ht
        obtain ⟨dim, hdim, rfl⟩ := List.mem_map.1 ht
        -- the dimensions offered are those of the loops above the last leaf of the left sibling
        have hdims : ((above roots (path ++ pre.length :: qa)).map fun l => l.1.dim) = ka.map Header.dim := by
          rw [← hoa.above_eq, List.map_map]
          rfl
        rw [hdims] at hdim
        obtain ⟨k, hk, rfl⟩ := List.mem_iff_getElem.1 hdim
        have hlengthA := hoa.length_path
        have hlengthB := hob.length_path
        simp only [List.length_drop, List.length_take, List.length_map, List.length_append, List.length_cons,
          List.length_nil] at hk hlengthA hlengthB hob
        simp only [List.getElem_drop, List.getElem_take, List.getElem_map]
        have hjoins := joins_of_occurs hnames hsound hoa hob (by omega) (Nat.le_add_right path.length k)
          (by omega) (by omega)
        exact ⟨_, _, _, _, _, _, _, _, rfl, hjoins⟩
      · cases ht

theorem joins_of_mem_pairs {pre ns : List Node} {path : Path} (hw : Within roots (pre ++ ns) path)
    {t : Transformation} (ht : t ∈ fusionsOfPairs p roots path.length ns) :
    IsJoin p roots t := by
  induction ns generalizing pre with
  | nil => cases ht
  | cons left ns ih =>
    cases ns with
    | nil => cases ht
    | cons right post =>
      rcases List.mem_append.1 ht with ht | ht
      · exact joins_of_mem_pair hnames hsound hw ht
      · have hrest : Within roots ((pre ++ [left]) ++ right :: post) path := by
          rw [List.append_assoc]
          exact hw
        exact ih hrest ht

omit hnames hsound

mutual

theorem joins_of_mem_below (hnames : (p.computations.map Computation.name).Nodup) (hsound : Sound p roots) (n : Node)
    {pre post : List Node} {path : Path} (hw : Within roots (pre ++ n :: post) path) {t : Transformation}
    (ht : t ∈ fusionsBelow p roots path.length n) :
    IsJoin p roots t := by
  cases n with
  | leaf l => cases ht
  | loop hd body =>
    have hbody : Within roots ([] ++ body) (path ++ [pre.length]) := hw.body
    have hdepth : path.length + 1 = (path ++ [pre.length]).length := by simp
    rw [fusionsBelow, hdepth] at ht
    rcases List.mem_append.1 ht with ht | ht
    · exact joins_of_mem_pairs hnames hsound hbody ht
    · exact joins_of_mem_belowAll hnames hsound body hbody ht

theorem joins_of_mem_belowAll (hnames : (p.computations.map Computation.name).Nodup) (hsound : Sound p roots)
    (ns : List Node) {pre : List Node} {path : Path} (hw : Within roots (pre ++ ns) path) {t : Transformation}
    (ht : t ∈ fusionsBelowAll p roots path.length ns) : IsJoin p roots t := by
  cases ns with
  | nil => cases ht
  | cons n ns =>
    rcases List.mem_append.1 ht with ht | ht
    · exact joins_of_mem_below hnames hsound n hw ht
    · have hrest : Within roots ((pre ++ [n]) ++ ns) path := by
        rw [List.append_assoc]
        exact hw
      exact joins_of_mem_belowAll hnames hsound ns hrest ht

end

end Candidates

end Proposals

end LoopNest

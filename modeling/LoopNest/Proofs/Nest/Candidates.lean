import LoopNest.Proofs.Nest.FusionCandidates
import LoopNest.Proofs.Description.Sharing

namespace LoopNest

open Node

section Conditions

variable {roots : List Node} {path : Path} {hd : Header} {body : List Node} {hs : List Header} {extent : Option Int}
  {factor : Nat}

theorem fixedRange_of_extent (t : Transformation) (hextent : hd.fixedExtent? = .ok extent) :
    (∃ s, fixedRange t hd = .ok s ∧ extent = some s.extent ∧ hd.lower.constant?.isSome = true) ∨
      (∃ o, fixedRange t hd = Outcome.refuse (.notApplicable t o)) ∧
        (extent = none ∨ hd.lower.constant?.isSome = false) := by
  rw [fixedRange]
  split
  · next hclamp =>
    rw [Header.fixedExtent?, if_pos hclamp] at hextent
    cases hextent
    exact .inr ⟨⟨_, rfl⟩, .inl rfl⟩
  · split
    · next hlower => exact .inr ⟨⟨_, rfl⟩, .inr (by rw [hlower]; rfl)⟩
    · next lower hlower =>
      rw [hextent]
      cases extent with
      | none => exact .inr ⟨⟨_, rfl⟩, .inl rfl⟩
      | some n => exact .inl ⟨⟨lower, n⟩, rfl, rfl, by rw [hlower]; rfl⟩

variable (ho : Occurs (.loop hd body) roots path hs) (hdims : (dimsAll roots).Nodup)
include ho hdims

theorem tile_accepted_iff (hextent : hd.fixedExtent? = .ok extent) (hfactor : 2 ≤ factor)
    (hfaults : tile roots hd.dim factor ≠ .error (.fault .overflow)) :
    (∃ roots', tile roots hd.dim factor = .ok roots') ↔ hd.hasTags = false ∧ hd.lower.constant?.isSome = true ∧
      ∃ n, extent = some n ∧ (factor : Int) < n := by
  simp only [tile, namedLoop_of_occurs ho hdims, ok_bind] at hfaults ⊢
  cases htags : hd.hasTags with
  | true => simp [Outcome.refuse]
  | false =>
    simp only [htags, Bool.false_eq_true, if_false] at hfaults ⊢
    rcases fixedRange_of_extent (.tile hd.dim factor) hextent with ⟨s, hrange, rfl, hlower⟩ | ⟨⟨o, hrange⟩, hnot⟩
    · simp only [hrange, ok_bind] at hfaults ⊢
      by_cases hsmall : (factor : Int) ≤ 1 ∨ s.extent ≤ factor
      · rw [if_pos hsmall]
        constructor
        · rintro ⟨roots', h⟩
          obtain ⟨most, -, h⟩ := bind_eq_ok.1 h
          cases h
        · rintro ⟨-, -, n, hn, hlt⟩
          cases hn
          omega
      · rw [if_neg hsmall] at hfaults ⊢
        refine iff_of_true ?_ ⟨trivial, hlower, s.extent, rfl, by omega⟩
        rw [splitAt] at hfaults ⊢
        -- only an overflow could stop the split, and there is none
        cases hsplit : split (loopDims roots) hd body s factor {} with
        | ok n => exact ⟨_, rfl⟩
        | error f =>
          rw [hsplit, split_failsOnly _ _ _ _ _ _ f hsplit] at hfaults
          exact absurd rfl hfaults
    · rw [hrange]
      refine iff_of_false ?_ ?_
      · rintro ⟨roots', h⟩
        cases h
      · rintro ⟨-, hlower, n, hn, -⟩
        rcases hnot with hnot | hnot
        · cases hnot.symm.trans hn
        · cases hnot.symm.trans hlower

theorem parallelize_accepted_iff : (∃ roots', parallelize roots hd.dim = .ok roots') ↔
    (hs.any fun g => g.tags.parallel) = false ∧ hd.tags.parallel = false ∧ hd.tags.vectorize = none ∧
      containsParallel body = false := by
  have habove : ((above roots path).any fun l => l.1.tags.parallel) = hs.any fun g => g.tags.parallel := by
    rw [← ho.above_eq, List.any_map]
    rfl
  simp only [parallelize, namedLoop_of_occurs ho hdims, ok_bind, habove]
  constructor
  · rintro ⟨roots', h⟩
    repeat' split at h
    · cases h
    · cases h
    · cases h
    · cases h
    · simp_all
  · rintro ⟨h₁, h₂, h₃, h₄⟩
    simp only [h₁, h₂, h₃, h₄, Bool.false_eq_true, if_false, Option.isSome_none]
    exact ⟨_, rfl⟩

omit ho hdims in
theorem extent_of_tagOrSplit {t : Transformation} {range : Int → Obstacle} {tags : Tags} {roots' : List Node}
    (hclamp : hd.clamp = none) (h : tagOrSplit roots t path hd body factor range tags = .ok roots') :
    ∃ n, hd.fixedExtent? = .ok (some n) ∧ (factor : Int) ≤ n := by
  simp only [tagOrSplit, bind_eq_ok, lift_eq_ok] at h
  obtain ⟨extent, hextent, h⟩ := h
  cases extent with
  | none => cases h
  | some n =>
    simp only at h
    split at h
    · cases h
    · next hrange =>
      refine ⟨n, ?_, by omega⟩
      rw [Header.fixedExtent?, hclamp]
      exact hextent

end Conditions

def Encloses (roots : List Node) (outer inner : String) : Prop :=
  ∃ hd body path hs, hd.dim = inner ∧ Occurs (.loop hd body) roots path hs ∧ outer ∈ hs.map Header.dim

/-- The proposals are those that apply, as far as the kind of the transformation is decided by its own loops. -/
structure Candidates.Agree (p : Program) (roots : List Node) (ts : List Transformation) : Prop where
  tiles : ∀ dim, ∀ factor ∈ tileGrid, (Transformation.tile dim factor).applyTo p roots ≠ .error (.fault .overflow) →
    (.tile dim factor ∈ ts ↔ ∃ roots', (Transformation.tile dim factor).applyTo p roots = .ok roots')
  parallel : ∀ dim,
    .parallelize dim ∈ ts ↔ ∃ roots', (Transformation.parallelize dim).applyTo p roots = .ok roots'
  interchanges : ∀ first second roots', (Transformation.interchange first second).applyTo p roots = .ok roots' →
    ∃ outer inner, (outer = first ∧ inner = second ∨ outer = second ∧ inner = first) ∧
      Encloses roots outer inner ∧ .interchange outer inner ∈ ts
  innermost : ∀ hd body path hs, Occurs (.loop hd body) roots path hs → onlyLeaves body = true → hd.clamp = none →
    (∀ factor ∈ unrollGrid, ∀ roots', (Transformation.unroll hd.dim factor).applyTo p roots = .ok roots' →
      .unroll hd.dim factor ∈ ts) ∧
    ∀ width ∈ widthGrid, ∀ roots', (Transformation.vectorize hd.dim width).applyTo p roots = .ok roots' →
      .vectorize hd.dim width ∈ ts
  fusions : ∀ first second dim, .fuse first second dim ∈ ts →
    (∃ a b aPath bPath dimPath, Joins p roots first second dim a b aPath bPath dimPath) ∧
    FailsOnly (Clashes (.fuse first second dim)) ((Transformation.fuse first second dim).applyTo p roots)

namespace Candidates

variable {p : Program} {roots : List Node} {loops : List Transformation}

theorem not_isJoin_tile (dim : String) (factor : Nat) : ¬ IsJoin p roots (.tile dim factor) := by
  rintro ⟨_, _, _, _, _, _, _, _, h, -⟩
  cases h

theorem not_isJoin_parallelize (dim : String) : ¬ IsJoin p roots (.parallelize dim) := by
  rintro ⟨_, _, _, _, _, _, _, _, h, -⟩
  cases h

variable (hsound : Sound p roots) (h : forNodes false roots = .ok loops)
include hsound h

theorem tile_mem_iff {dim : String} {factor : Nat} (hfactor : factor ∈ tileGrid)
    (hfaults : tile roots dim factor ≠ .error (.fault .overflow)) :
    .tile dim factor ∈ loops ↔ ∃ roots', tile roots dim factor = .ok roots' := by
  have htwo : 2 ≤ factor := (by decide : ∀ f ∈ tileGrid, 2 ≤ f) factor hfactor
  constructor
  · intro hmem
    obtain ⟨hd, body, path, hs, own, ho, hown, hmem⟩ := occurs_of_mem_forNodes roots h hmem
    obtain ⟨rfl, -, htags, hlower, n, hextent, hlt⟩ := (tile_mem_forLoop hown).1 hmem
    exact (tile_accepted_iff ho hsound.dims hextent htwo hfaults).2 ⟨htags, hlower, n, rfl, hlt⟩
  · rintro ⟨roots', htile⟩
    obtain ⟨path, hd, body, hs, rfl, ho, -⟩ := namedLoop_bind_eq_ok htile
    obtain ⟨own, hown, hsub⟩ := exists_forLoop h ho
    obtain ⟨extent, hextent, -⟩ := mem_forLoop hown
    obtain ⟨htags, hlower, n, rfl, hlt⟩ := (tile_accepted_iff ho hsound.dims hextent htwo hfaults).1 ⟨roots', htile⟩
    exact hsub ((tile_mem_forLoop hown).2 ⟨rfl, hfactor, htags, hlower, n, hextent, hlt⟩)

theorem parallelize_mem_iff {dim : String} :
    .parallelize dim ∈ loops ↔ ∃ roots', parallelize roots dim = .ok roots' := by
  constructor
  · intro hmem
    obtain ⟨hd, body, path, hs, own, ho, hown, hmem⟩ := occurs_of_mem_forNodes roots h hmem
    obtain ⟨rfl, hconditions⟩ := (parallelize_mem_forLoop hown).1 hmem
    exact (parallelize_accepted_iff ho hsound.dims).2 hconditions
  · rintro ⟨roots', hparallel⟩
    obtain ⟨path, hd, body, hs, rfl, ho, -⟩ := namedLoop_bind_eq_ok hparallel
    obtain ⟨own, hown, hsub⟩ := exists_forLoop h ho
    have hconditions := (parallelize_accepted_iff ho hsound.dims).1 ⟨roots', hparallel⟩
    exact hsub ((parallelize_mem_forLoop hown).2 ⟨rfl, hconditions⟩)

theorem interchange_mem_of_accepted {first second : String} {roots' : List Node}
    (haccepted : interchange roots first second = .ok roots') :
    ∃ outer inner, (outer = first ∧ inner = second ∨ outer = second ∧ inner = first) ∧
      Encloses roots outer inner ∧ .interchange outer inner ∈ loops := by
  obtain ⟨outer, inner, mids, body, path, rest, hs, hswaps, hnames⟩ := swaps_of_interchange hsound haccepted
  obtain ⟨own, hown, hsub⟩ := exists_forLoop h hswaps.occurs
  have hinner := hswaps.occurs.append hswaps.inside
  have huntagged {hd : Header} (htags : hd.tags = {}) : hd.hasTags = false := by simp [Header.hasTags, htags]
  refine ⟨outer.dim, inner.dim, ?_, ⟨inner, body, _, _, rfl, hinner, by simp⟩, ?_⟩
  · rcases hnames with ⟨rfl, rfl⟩ | ⟨rfl, rfl⟩
    · exact .inl ⟨rfl, rfl⟩
    · exact .inr ⟨rfl, rfl⟩
  · apply hsub
    apply interchange_mem_forLoop hown (huntagged hswaps.outer_untagged) _ (huntagged hswaps.inner_untagged)
    rw [soleLoopsIn_nest]
    exact List.mem_append_right _ List.mem_cons_self

section Innermost

variable {hd : Header} {body : List Node} {path : Path} {hs : List Header} {roots' : List Node}
  (ho : Occurs (.loop hd body) roots path hs) (hbody : onlyLeaves body = true)
include ho hbody

omit hsound in
theorem innermost_subset (htags : hd.hasTags = false) {n : Int} (hextent : hd.fixedExtent? = .ok (some n)) :
    innermost hd (some n) ⊆ loops := by
  obtain ⟨own, hown, hsub⟩ := exists_forLoop h ho
  exact fun t ht => hsub (innermost_subset_forLoop hown htags hbody hextent ht)

variable (hclamp : hd.clamp = none)
include hclamp

theorem unroll_mem_of_accepted {factor : Nat} (hfactor : factor ∈ unrollGrid)
    (haccepted : unroll roots hd.dim factor = .ok roots') : .unroll hd.dim factor ∈ loops := by
  simp only [unroll, namedLoop_of_occurs ho hsound.dims, ok_bind] at haccepted
  split at haccepted
  · cases haccepted
  · next htags =>
    obtain ⟨n, hextent, hle⟩ := extent_of_tagOrSplit hclamp haccepted
    apply innermost_subset h ho hbody (by simpa using htags) hextent
    exact mem_innermost.2 ⟨n, rfl, .inl ⟨factor, hfactor, hle, rfl⟩⟩

theorem vectorize_mem_of_accepted {width : Nat} (hwidth : width ∈ widthGrid)
    (haccepted : vectorize roots hd.dim width = .ok roots') : .vectorize hd.dim width ∈ loops := by
  simp only [vectorize, namedLoop_of_occurs ho hsound.dims, ok_bind, hbody, Bool.not_true, Bool.false_eq_true,
    if_false] at haccepted
  split at haccepted
  · cases haccepted
  · next htags =>
    obtain ⟨n, hextent, hle⟩ := extent_of_tagOrSplit hclamp haccepted
    apply innermost_subset h ho hbody (by simpa using htags) hextent
    exact mem_innermost.2 ⟨n, rfl, .inr ⟨width, hwidth, hle, rfl⟩⟩

end Innermost

omit h in
theorem agree_of_forNodes (h : forNodes false roots = .ok loops) {joins : List Transformation}
    (hjoins : ∀ t ∈ joins, IsJoin p roots t) : Agree p roots (loops ++ joins) where
  tiles dim factor hfactor hfaults := by
    have hnot : Transformation.tile dim factor ∉ joins := fun hmem => not_isJoin_tile dim factor (hjoins _ hmem)
    simp only [List.mem_append, hnot, or_false]
    exact tile_mem_iff hsound h hfactor hfaults
  parallel dim := by
    have hnot : Transformation.parallelize dim ∉ joins := fun hmem => not_isJoin_parallelize dim (hjoins _ hmem)
    simp only [List.mem_append, hnot, or_false]
    exact parallelize_mem_iff hsound h
  interchanges first second roots' haccepted := by
    obtain ⟨outer, inner, hnames, hencloses, hmem⟩ := interchange_mem_of_accepted hsound h haccepted
    exact ⟨outer, inner, hnames, hencloses, List.mem_append_left _ hmem⟩
  innermost hd body path hs ho hbody hclamp := by
    refine ⟨fun factor hfactor roots' haccepted => ?_, fun width hwidth roots' haccepted => ?_⟩
    · exact List.mem_append_left _ (unroll_mem_of_accepted hsound h ho hbody hclamp hfactor haccepted)
    · exact List.mem_append_left _ (vectorize_mem_of_accepted hsound h ho hbody hclamp hwidth haccepted)
  fusions first second dim hmem := by
    rcases List.mem_append.1 hmem with hmem | hmem
    · obtain ⟨hd, body, path, hs, own, -, hown, hmem⟩ := occurs_of_mem_forNodes roots h hmem
      exact absurd hmem (fuse_not_mem_forLoop hown)
    · obtain ⟨_, _, _, a, b, aPath, bPath, dimPath, heq, hjoin⟩ := hjoins _ hmem
      cases heq
      exact ⟨⟨a, b, aPath, bPath, dimPath, hjoin⟩, hjoin.clashes_fuse hsound⟩

end Candidates

/-- The candidates of a nest agree with what its transformations ask for. They are there unless the extent of a loop
overflows. -/
theorem candidates_agree {description : Description} {p : Program} (hp : description.build = .ok p) {n : Nest}
    (hn : n.Reachable (Context.ofProgram p)) :
    (∃ ts, n.candidates (Context.ofProgram p) = .ok ts ∧ Candidates.Agree p n.roots ts) ∨
      n.candidates (Context.ofProgram p) = .error .overflow ∧ ∃ hd body path hs,
        Occurs (.loop hd body) n.roots path hs ∧ hd.fixedExtent? = .error .overflow := by
  have hsound := (Nest.reshaped_of_reachable hn).sound (Description.wellFormed_of_build hp)
  have hnames := Description.nodup_names_of_build hp
  have hroots : Within n.roots ([] ++ n.roots) [] := fun x q ks ho => ⟨ks, ho⟩
  cases hloops : Candidates.forNodes false n.roots with
  | error f =>
    obtain rfl := Candidates.forNodes_failsOnly false n.roots f hloops
    refine .inr ⟨?_, Candidates.occurs_of_forNodes_error n.roots hloops⟩
    rw [Nest.candidates, hloops]
    rfl
  | ok loops =>
    refine .inl ⟨_, by rw [Nest.candidates, hloops, ok_bind]; rfl, ?_⟩
    rw [List.append_assoc]
    apply Candidates.agree_of_forNodes hsound hloops
    intro t ht
    rcases List.mem_append.1 ht with ht | ht
    · exact Candidates.joins_of_mem_pairs hnames hsound hroots ht
    · exact Candidates.joins_of_mem_belowAll hnames hsound n.roots hroots ht

theorem candidates_agree_producerConsumer : ∃ ts,
    Nest.Reachable (Context.ofProgram ProducerConsumer.program) ⟨ProducerConsumer.separate, [], none⟩ ∧
    Nest.candidates (Context.ofProgram ProducerConsumer.program) ⟨ProducerConsumer.separate, [], none⟩ = .ok ts ∧
    .fuse "produce" "consume" "i" ∈ ts ∧ Candidates.Agree ProducerConsumer.program ProducerConsumer.separate ts := by
  obtain ⟨hreachable, -, -⟩ := ProducerConsumer.reachable
  obtain ⟨ts, hts, hagree⟩ | ⟨hfaults, -⟩ := candidates_agree ProducerConsumer.build_eq hreachable
  · refine ⟨ts, hreachable, hts, ?_, hagree⟩
    cases hts
    decide
  · cases hfaults

namespace Extreme

def description (iterators : List Description.Iterator) : Description where
  name := "extreme"
  params := []
  buffers := [⟨"out", ["1"], .float64, .output⟩]
  computations := [{ name := "c", iterators, store := ⟨"out", ["0"]⟩, expr := .const 1.0 }]

def program (domain : List Dimension) : Program where
  name := "extreme"
  params := []
  buffers := [⟨"out", [1], .float64, .output⟩]
  computations := [⟨"c", domain, .const 1.0, ⟨0, [.ofInt 0]⟩, none⟩]

def steep : List Dimension :=
  [⟨"i", .ofInt (-1), .ofInt 2⟩, ⟨"j", ⟨[⟨4611686018427387904, "i"⟩], 0⟩, ⟨[⟨4611686018427387904, "i"⟩], 1⟩⟩]

def vast : List Dimension := [⟨"i", .ofInt (-1), .ofInt 9223372036854775807⟩]

def steepTree : List Node :=
  [.loop ⟨"i", .ofInt (-1), .ofInt 2, none, {}⟩
    [.loop ⟨"j", ⟨[⟨4611686018427387904, "i"⟩], 0⟩, ⟨[⟨4611686018427387904, "i"⟩], 1⟩, none, {}⟩
      [.leaf ⟨0, [.var "i", .var "j"]⟩]]]

def vastTree (tags : Tags) : List Node :=
  [.loop ⟨"i", .ofInt (-1), .ofInt 9223372036854775807, none, tags⟩ [.leaf ⟨0, [.var "i"]⟩]]

/-- A tile is proposed that leaves the range of a word while the bounds inside are rewritten; nothing is proposed
where the extent of a loop is no word. -/
theorem candidates_disagree :
    (description [⟨"i", "-1", "2"⟩, ⟨"j", "4611686018427387904*i", "4611686018427387904*i + 1"⟩]).build =
      .ok (program steep) ∧
    Nest.initial (Context.ofProgram (program steep)) = .ok { roots := steepTree } ∧
    Nest.candidates (Context.ofProgram (program steep)) { roots := steepTree } =
      .ok [.tile "i" 2, .interchange "i" "j", .parallelize "i", .parallelize "j"] ∧
    (Transformation.tile "i" 2).applyTo (program steep) steepTree = .error (.fault .overflow) ∧
    (description [⟨"i", "-1", "9223372036854775807"⟩]).build = .ok (program vast) ∧
    Nest.initial (Context.ofProgram (program vast)) = .ok { roots := vastTree {} } ∧
    Nest.candidates (Context.ofProgram (program vast)) { roots := vastTree {} } = .error .overflow ∧
    (Transformation.parallelize "i").applyTo (program vast) (vastTree {}) = .ok (vastTree { parallel := true }) :=
  ⟨rfl, rfl, rfl, rfl, rfl, rfl, rfl, rfl⟩

end Extreme

end LoopNest

import LoopNest.Proofs.Text.Name
import LoopNest.Proofs.Transform.Conserves
import LoopNest.Transform.Split
import Mathlib.Algebra.Order.Floor.Ring
import Mathlib.Data.Rat.Floor

namespace LoopNest

open Node

theorem ceilDiv_le_iff {n d c : Int} (hd : 0 < d) : ceilDiv n d ≤ c ↔ n ≤ c * d := by
  rw [ceilDiv, ← Int.lt_add_one_iff, Int.ediv_lt_iff_lt_mul hd, Int.add_mul, Int.one_mul]
  omega

theorem ceilDiv_eq_ceil (n : Int) {d : Int} (hd : 0 < d) : ceilDiv n d = ⌈(n : ℚ) / d⌉ := by
  apply eq_of_forall_ge_iff
  intro c
  have hpos : (0 : ℚ) < d := Int.cast_pos.2 hd
  rw [ceilDiv_le_iff hd, Int.ceil_le, div_le_iff₀ hpos, ← Int.cast_mul, Int.cast_le]

theorem ceilDiv_nonneg {n d : Int} (hn : 0 ≤ n) (hd : 0 < d) : 0 ≤ ceilDiv n d :=
  Int.ediv_nonneg (by omega) (by omega)

theorem flatMap_tiles (lower : Int) (factor tiles extent : Nat) (h : extent ≤ factor * tiles) :
    (List.range tiles).flatMap (fun (o : Nat) =>
      valuesFrom (lower + (factor * o : Nat)) (min factor (extent - factor * o))) =
        valuesFrom lower extent := by
  induction tiles generalizing extent with
  | zero =>
    obtain rfl : extent = 0 := by simpa using h
    rfl
  | succ tiles ih =>
    rw [Nat.mul_succ] at h
    -- the tiles in front of the last one are the tiles of the range that ends with them
    have hfull : (List.range tiles).flatMap (fun (o : Nat) =>
        valuesFrom (lower + (factor * o : Nat)) (min factor (extent - factor * o))) =
          valuesFrom lower (min extent (factor * tiles)) := by
      rw [← ih (min extent (factor * tiles)) (Nat.min_le_right _ _)]
      refine List.flatMap_congr fun o ho => ?_
      have hle : factor * o + factor ≤ factor * tiles := by
        rw [← Nat.mul_succ]
        exact Nat.mul_le_mul_left factor (List.mem_range.1 ho)
      congr 1
      omega
    have hsplit : extent = min extent (factor * tiles) + min factor (extent - factor * tiles) := by omega
    rw [List.range_succ, List.flatMap_append, hfull, List.flatMap_singleton]
    by_cases hle : extent ≤ factor * tiles
    · rw [Nat.min_eq_left hle, Nat.sub_eq_zero_of_le hle, Nat.min_zero, valuesFrom_zero, List.append_nil]
    · conv_rhs => rw [hsplit, valuesFrom_add]
      rw [Nat.min_eq_right (by omega)]

theorem flatMap_valuesFrom_tiles (lower extent : Int) (factor : Nat) (hfactor : 0 < factor)
    (hextent : 0 ≤ extent) :
    (valuesFrom 0 (ceilDiv extent factor).toNat).flatMap (fun o =>
      valuesFrom (factor * o + lower) (min (factor : Int) (extent - factor * o)).toNat) =
        valuesFrom lower extent.toNat := by
  have hpos : (0 : Int) < factor := Int.natCast_pos.2 hfactor
  obtain ⟨tiles, ht⟩ := Int.eq_ofNat_of_zero_le (ceilDiv_nonneg hextent hpos)
  obtain ⟨e, rfl⟩ := Int.eq_ofNat_of_zero_le hextent
  have hle : e ≤ factor * tiles := by
    have hall := (ceilDiv_le_iff hpos).1 ht.le
    rw [Nat.mul_comm]
    exact_mod_cast hall
  rw [ht, Int.toNat_natCast, Int.toNat_natCast, ← flatMap_tiles lower factor tiles e hle, valuesFrom,
    List.flatMap_map]
  refine List.flatMap_congr fun o _ => ?_
  have hmul : ((factor * o : Nat) : Int) = factor * o := Int.natCast_mul _ _
  rw [Int.zero_add, ← hmul]
  congr 1
  · omega
  · omega

theorem extent_of_unclamped {hd : Header} {extent : Int} (h : hd.unclampedExtent? = .ok (some extent))
    (env : Valuation) : hd.upper.value env - hd.lower.value env = extent := by
  obtain ⟨d, hd', h⟩ := bind_eq_ok.1 h
  rw [← Affine.value_sub env hd', Affine.value_of_constant? (Except.ok.inj h)]

theorem fits_of_unclamped {hd : Header} {extent : Int} (h : hd.unclampedExtent? = .ok (some extent)) :
    Word.fits extent = true := by
  obtain ⟨d, hsub, h⟩ := bind_eq_ok.1 h
  obtain ⟨g, -, hadd⟩ := bind_eq_ok.1 hsub
  obtain ⟨c, ts, hc, -, rfl⟩ := bind₂_eq_ok.1 hadd
  obtain ⟨rfl, hfits⟩ := Word.add_eq_ok.1 hc
  have hconstant := Except.ok.inj h
  rw [Affine.constant?] at hconstant
  split at hconstant
  · cases hconstant
    exact hfits
  · cases hconstant

theorem fixedRange_eq_ok {t : Transformation} {hd : Header} {s : FixedRange}
    (h : fixedRange t hd = .ok s) : hd.clamp = none ∧ Word.fits s.extent = true ∧
      ∀ env, hd.lower.value env = s.lower ∧ hd.upper.value env - hd.lower.value env = s.extent := by
  rw [fixedRange] at h
  split at h
  · cases h
  · next hclamp =>
    have hnone : hd.clamp = none := by simpa using hclamp
    split at h
    · cases h
    · next lower hlower =>
      simp only [bind_eq_ok, lift_eq_ok] at h
      obtain ⟨extent, hextent, h⟩ := h
      rw [Header.fixedExtent?, if_neg hclamp] at hextent
      cases extent with
      | none => cases h
      | some extent =>
        cases h
        exact ⟨hnone, fits_of_unclamped hextent,
          fun env => ⟨Affine.value_of_constant? hlower env, extent_of_unclamped hextent env⟩⟩

section Forms

theorem ofInt_form (n : Int) {names : List String} :
    (Affine.ofInt n).Over names ∧ (Affine.ofInt n).IsCanonical :=
  ⟨Affine.over_ofInt n names, Affine.isCanonical_ofInt n⟩

variable {outer inner : String} {factor lower extent : Int}

theorem tileValue_eq_ok {value : Affine} (h : tileValue outer inner factor lower = .ok value) :
    value.Over [outer, inner] ∧
      ∀ env, value.value env = factor * env outer + env inner + lower := by
  obtain ⟨scaled, hs, h⟩ := bind_eq_ok.1 h
  obtain ⟨both, hb, h⟩ := bind_eq_ok.1 h
  have hscaled : scaled.Over [outer, inner] := Affine.over_scale (Affine.over_var List.mem_cons_self) hs
  have hinner : (Affine.var inner).Over [outer, inner] :=
    Affine.over_var (List.mem_cons_of_mem _ (List.mem_singleton_self _))
  refine ⟨Affine.over_addConstant (Affine.over_add hscaled hinner hb) h, fun env => ?_⟩
  rw [Affine.value_addConstant env h, Affine.value_add env hb, Affine.value_scale env hs, Affine.value_var,
    Affine.value_var]

theorem remainder_eq_ok {clamp : Option Affine} (h : remainder outer factor extent = .ok clamp) :
    (clamp = none ∧ extent % factor = 0) ∨ ∃ c, clamp = some c ∧ c.Over [outer] ∧ c.IsCanonical ∧
      ∀ env, c.value env = extent - factor * env outer := by
  rw [remainder] at h
  split at h
  · next hmod =>
    cases h
    exact Or.inl ⟨rfl, hmod⟩
  · obtain ⟨scaled, hs, h⟩ := bind_eq_ok.1 h
    obtain ⟨rest, hr, h⟩ := bind_eq_ok.1 h
    cases h
    have hover : scaled.Over [outer] := Affine.over_scale (Affine.over_var List.mem_cons_self) hs
    refine Or.inr ⟨rest, rfl, Affine.over_sub (Affine.over_ofInt _ _) hover hr, ?_, fun env => ?_⟩
    · obtain ⟨g, -, hr⟩ := bind_eq_ok.1 hr
      exact Affine.isCanonical_add hr
    · rw [Affine.value_sub env hr, Affine.value_ofInt, Affine.value_scale env hs, Affine.value_var]

end Forms

section Split

variable {p : Program} {taken : List String} {hd : Header} {body : List Node} {s : FixedRange} {factor : Nat}
  {tags : Tags}

structure Tiled (taken : List String) (hd : Header) (body : List Node) (s : FixedRange) (factor : Nat)
    (outer inner : String) (value : Affine) (clamp : Option Affine) (body' : List Node) : Prop where
  freshOuter : outer ∉ taken
  freshInner : inner ∉ outer :: taken
  value_eq : tileValue outer inner factor s.lower = .ok value
  body_eq : substituteAll (fun v => if v = hd.dim then value else .var v) body = .ok body'
  clamp_eq : remainder outer factor s.extent = .ok clamp

def outerHeader (hd : Header) (s : FixedRange) (factor : Nat) (outer : String) : Header :=
  { hd with dim := outer, lower := .zero, upper := .ofInt (s.tiles factor) }

def innerHeader (factor : Nat) (inner : String) (clamp : Option Affine) (tags : Tags) : Header :=
  { dim := inner, lower := .zero, upper := .ofInt factor, clamp, tags }

theorem split_eq_ok {n : Node} (h : split taken hd body s factor tags = .ok n) :
    ∃ outer inner value clamp body', Tiled taken hd body s factor outer inner value clamp body' ∧
      n = .loop (outerHeader hd s factor outer) [.loop (innerHeader factor inner clamp tags) body'] := by
  obtain ⟨value, hvalue, h⟩ := bind_eq_ok.1 h
  obtain ⟨body', clamp, hbody, hclamp, rfl⟩ := bind₂_eq_ok.1 h
  exact ⟨_, _, value, clamp, body',
    ⟨Name.fresh_not_mem _ _, Name.fresh_not_mem _ _, hvalue, hbody, hclamp⟩, rfl⟩

theorem value_zero (env : Valuation) : Affine.zero.value env = 0 := Affine.value_ofInt 0 env

theorem outerHeader_values (hclamp : hd.clamp = none) (outer : String) (env : Valuation) :
    (outerHeader hd s factor outer).values env =
      valuesFrom 0 (s.tiles factor).toNat := by
  simp only [Header.values, Header.top, outerHeader, hclamp, value_zero, Affine.value_ofInt, Int.sub_zero]

theorem outerHeader_tidy {names : List String} (hclamp : hd.clamp = none) {outer : String} :
    (outerHeader hd s factor outer).Tidy names := by
  apply Header.tidy_of_limits (ofInt_form 0) (ofInt_form _)
  intro c hc
  cases hclamp.symm.trans hc

variable {outer inner : String} {value : Affine} {clamp : Option Affine} {body' : List Node}
  (ht : Tiled taken hd body s factor outer inner value clamp body')
include ht

theorem innerHeader_values (hfactor : 1 < factor) {env : Valuation}
    (ho : 0 ≤ env outer ∧ env outer < s.tiles factor) :
    (innerHeader factor inner clamp tags).values env =
      valuesFrom 0 (min (factor : Int) (s.extent - factor * env outer)).toNat := by
  obtain ⟨rfl, hmod⟩ | ⟨c, rfl, -, -, hc⟩ := remainder_eq_ok ht.clamp_eq
  · simp only [Header.values, Header.top, innerHeader, value_zero, Affine.value_ofInt, Int.sub_zero]
    have hdiv := Int.mul_ediv_add_emod s.extent factor
    rw [hmod] at hdiv
    have htiles : s.tiles factor ≤ s.extent / factor := by
      rw [FixedRange.tiles, ceilDiv_le_iff (by omega), Int.mul_comm]
      omega
    have hle : (factor : Int) * (env outer + 1) ≤ factor * (s.extent / factor) :=
      Int.mul_le_mul_of_nonneg_left (by omega) (by omega)
    rw [Int.mul_add, Int.mul_one] at hle
    rw [Int.min_eq_left (by omega)]
  · simp only [Header.values, Header.top, innerHeader, value_zero, Affine.value_ofInt, Int.sub_zero, hc]

theorem spares_of_tiled (hdims : (hd.dim :: dimsAll body).Nodup) (hbody : hd.dim :: dimsAll body ⊆ taken) :
    ∀ w ∈ dimsAll body, Spares (fun v => if v = hd.dim then value else .var v) w := by
  intro w hw
  have hne : w ≠ hd.dim := by
    rintro rfl
    exact (List.nodup_cons.1 hdims).1 hw
  have htaken : w ∈ taken := hbody (List.mem_cons_of_mem _ hw)
  refine ⟨if_neg hne, fun a ha hmem => ?_⟩
  change w ∈ (if a = hd.dim then value else Affine.var a).atoms at hmem
  split at hmem
  · rcases List.mem_cons.1 ((tileValue_eq_ok ht.value_eq).1 w hmem) with rfl | hmem
    · exact ht.freshOuter htaken
    · rw [List.mem_singleton.1 hmem] at htaken
      exact ht.freshInner (List.mem_cons_of_mem _ htaken)
  · simp only [Affine.var, Affine.atoms, List.map_cons, List.map_nil, List.mem_singleton] at hmem
    exact ha hmem.symm

theorem innerHeader_tidy {names : List String} : (innerHeader factor inner clamp tags).Tidy (outer :: names) := by
  apply Header.tidy_of_limits (ofInt_form 0) (ofInt_form factor)
  intro c hc
  obtain ⟨rfl, -⟩ | ⟨c', rfl, hover, hcanonical, -⟩ := remainder_eq_ok ht.clamp_eq
  · cases hc
  · cases hc
    exact ⟨hover.mono fun a ha => List.mem_singleton.1 ha ▸ List.mem_cons_self, hcanonical⟩

end Split

structure Tiling (p : Program) (names taken : List String) (hd : Header) (body : List Node) (s : FixedRange)
    (factor : Nat) (outer inner : String) (value : Affine) (clamp : Option Affine) (body' : List Node) : Prop
    extends Tiled taken hd body s factor outer inner value clamp body' where
  unclamped : hd.clamp = none
  range : ∀ env, hd.lower.value env = s.lower ∧ hd.upper.value env - hd.lower.value env = s.extent
  large : 1 < factor
  extent : 0 ≤ s.extent
  names_taken : hd.dim :: names ⊆ taken
  tidy : TidyAll p (hd.dim :: names) body
  spares : ∀ w ∈ dimsAll body, Spares (fun v => if v = hd.dim then value else .var v) w

namespace Tiling

variable {p : Program} {names taken : List String} {hd : Header} {body : List Node} {s : FixedRange} {factor : Nat}
  {tags : Tags} {outer inner : String} {value : Affine} {clamp : Option Affine} {body' : List Node}
  (h : Tiling p names taken hd body s factor outer inner value clamp body')
include h

theorem value_eq_update (env : Valuation) (o i : Int) : ∀ a ∈ hd.dim :: names,
    (if a = hd.dim then value else Affine.var a).value (Function.update (Function.update env outer o) inner i) =
      Function.update env hd.dim (factor * o + s.lower + i) a := by
  have hinner : inner ≠ outer := fun heq => h.freshInner (heq ▸ List.mem_cons_self)
  intro a ha
  by_cases had : a = hd.dim
  · rw [if_pos had, (tileValue_eq_ok h.value_eq).2, had, Function.update_self, Function.update_self,
      Function.update_of_ne hinner.symm, Function.update_self]
    omega
  · have houter : a ≠ outer := by
      rintro rfl
      exact h.freshOuter (h.names_taken ha)
    have hinner' : a ≠ inner := by
      rintro rfl
      exact h.freshInner (List.mem_cons_of_mem _ (h.names_taken ha))
    rw [if_neg had, Affine.value_var, Function.update_of_ne hinner', Function.update_of_ne houter,
      Function.update_of_ne had]

theorem flatMap_values (env : Valuation) {α : Type} {g : Int → List α} {g' : Int → Int → List α}
    (hg : ∀ o i : Int, 0 ≤ i → i < factor → g' o i = g (factor * o + s.lower + i)) :
    (((outerHeader hd s factor outer).values env).flatMap fun o =>
      ((innerHeader factor inner clamp tags).values (Function.update env outer o)).flatMap (g' o)) =
        (hd.values env).flatMap g := by
  have hlarge := h.large
  have hvalues : hd.values env = valuesFrom s.lower s.extent.toNat := by
    rw [Header.values, Header.top, h.unclamped, (h.range env).1]
    simp only
    rw [← (h.range env).2, (h.range env).1]
  rw [outerHeader_values h.unclamped, hvalues,
    ← flatMap_valuesFrom_tiles s.lower s.extent factor (by omega) h.extent, List.flatMap_assoc]
  refine List.flatMap_congr fun o ho => ?_
  have ho' := mem_valuesFrom.1 ho
  have hset : Function.update env outer o outer = o := Function.update_self _ _ _
  rw [innerHeader_values h.toTiled h.large (by rw [hset]; omega), hset, ← Int.add_zero (factor * o + s.lower),
    ← valuesFrom_map_add, List.flatMap_map]
  refine List.flatMap_congr fun i hi => ?_
  have hi' := mem_valuesFrom.1 hi
  rw [hg o i (by omega) (by omega)]

theorem points_eq (env : Valuation) :
    (Node.loop (outerHeader hd s factor outer) [.loop (innerHeader factor inner clamp tags) body']).points env
      = (Node.loop hd body).points env := by
  simp only [points, pointsAll, List.append_nil]
  refine h.flatMap_values env fun o i _ _ => ?_
  rw [pointsAll_substituteAll body h.body_eq h.spares]
  exact pointsAll_congr body h.tidy (h.value_eq_update env o i)

theorem tidy_tiles : (Node.loop (outerHeader hd s factor outer)
    [.loop (innerHeader factor inner clamp tags) body']).Tidy p names := by
  refine ⟨outerHeader_tidy h.unclamped, ⟨innerHeader_tidy h.toTiled, ?_⟩, trivial⟩
  refine tidyAll_substituteAll body h.body_eq h.tidy (fun a ha => ?_) h.spares
  split
  · refine (tileValue_eq_ok h.value_eq).1.mono fun b hb => ?_
    rcases List.mem_cons.1 hb with rfl | hb
    · exact List.mem_cons_of_mem _ List.mem_cons_self
    · rw [List.mem_singleton.1 hb]
      exact List.mem_cons_self
  · next hne =>
    have ha := (List.mem_cons.1 ha).resolve_left hne
    exact Affine.over_var (List.mem_cons_of_mem _ (List.mem_cons_of_mem _ ha))

end Tiling

section Inversion

variable {roots roots' : List Node} {factor : Nat} {tags : Tags} {hd : Header} {body : List Node} {path : Path}
  {hs : List Header}

structure Splits (roots roots' : List Node) (factor : Nat) (tags : Tags) (hd : Header) (body : List Node)
    (path : Path) (s : FixedRange) : Prop where
  clamp : hd.clamp = none
  range : ∀ env, hd.lower.value env = s.lower ∧ hd.upper.value env - hd.lower.value env = s.extent
  factor_lt : (factor : Int) < s.extent
  fits : Word.fits s.extent = true
  result : splitAt roots path hd body s factor tags = .ok roots'

structure Divides (roots roots' : List Node) (factor : Nat) (tags : Tags) (hd : Header) (body : List Node)
    (path : Path) (hs : List Header) : Prop where
  occurs : Occurs (.loop hd body) roots path hs
  untagged : hd.tags = {}
  large : 1 < factor
  effect : (roots' = setAt (.loop { hd with tags } body) path roots ∧
      ∀ env, hd.upper.value env - hd.lower.value env = factor) ∨
    ∃ s, Splits roots roots' factor tags hd body path s

theorem Splits.extent {s : FixedRange} (h : Splits roots roots' factor tags hd body path s) : 0 ≤ s.extent := by
  have hlt := h.factor_lt
  omega

theorem Splits.exists_tiled {s : FixedRange} (h : Splits roots roots' factor tags hd body path s)
    (ho : Occurs (.loop hd body) roots path hs) : ∃ outer inner value clamp body',
      Tiled (dimsAll roots) hd body s factor outer inner value clamp body' ∧
      Replaces (.loop hd body)
        (.loop (outerHeader hd s factor outer) [.loop (innerHeader factor inner clamp tags) body'])
        roots roots' hs := by
  have hresult := h.result
  simp only [splitAt, bind_eq_ok, lift_eq_ok] at hresult
  obtain ⟨n, hn, hresult⟩ := hresult
  cases hresult
  rw [loopDims_eq_dimsAll] at hn
  obtain ⟨outer, inner, value, clamp, body', ht, rfl⟩ := split_eq_ok hn
  exact ⟨outer, inner, value, clamp, body', ht, ho.replaces fun _ => _⟩

theorem tags_of_untagged (h : ¬ hd.hasTags = true) : hd.tags = {} := by simpa [Header.hasTags] using h

theorem divides_of_tile {dim : String} (h : tile roots dim factor = .ok roots') :
    ∃ hd body path hs, Divides roots roots' factor {} hd body path hs := by
  obtain ⟨path, hd, body, hs, -, ho, h⟩ := namedLoop_bind_eq_ok h
  simp only at h
  split at h
  · cases h
  · next huntagged =>
    obtain ⟨s, hfixed, h⟩ := bind_eq_ok.1 h
    obtain ⟨hclamp, hfits, hrange⟩ := fixedRange_eq_ok hfixed
    split at h
    · simp only [bind_eq_ok, lift_eq_ok] at h
      obtain ⟨most, -, h⟩ := h
      cases h
    · next hlarge =>
      have hsplits : Splits roots roots' factor {} hd body path s := ⟨hclamp, hrange, by omega, hfits, h⟩
      exact ⟨hd, body, path, hs, ho, tags_of_untagged huntagged, by omega, Or.inr ⟨s, hsplits⟩⟩

theorem divides_of_tagOrSplit {t : Transformation} (ho : Occurs (.loop hd body) roots path hs)
    (huntagged : hd.tags = {}) {range : Int → Obstacle}
    (h : tagOrSplit roots t path hd body factor range tags = .ok roots') :
    Divides roots roots' factor tags hd body path hs := by
  simp only [tagOrSplit, bind_eq_ok, lift_eq_ok] at h
  obtain ⟨extent, hextent, h⟩ := h
  split at h
  · cases h
  · next extent =>
    split at h
    · cases h
    · next hlarge =>
      refine ⟨ho, huntagged, by omega, ?_⟩
      split at h
      · next hwhole =>
        cases h
        exact Or.inl ⟨rfl, fun env => by rw [extent_of_unclamped hextent, hwhole]⟩
      · obtain ⟨s, hfixed, h⟩ := bind_eq_ok.1 h
        obtain ⟨hclamp, hfits, hrange⟩ := fixedRange_eq_ok hfixed
        have hsame : s.extent = extent := by
          rw [← (hrange fun _ => 0).2, extent_of_unclamped hextent]
        exact Or.inr ⟨s, hclamp, hrange, by omega, hfits, h⟩

theorem divides_of_unroll {dim : String} (h : unroll roots dim factor = .ok roots') :
    ∃ hd body path hs, Divides roots roots' factor { unroll := some factor } hd body path hs := by
  obtain ⟨path, hd, body, hs, -, ho, h⟩ := namedLoop_bind_eq_ok h
  simp only at h
  split at h
  · cases h
  · next huntagged => exact ⟨hd, body, path, hs, divides_of_tagOrSplit ho (tags_of_untagged huntagged) h⟩

theorem divides_of_vectorize {dim : String} (h : vectorize roots dim factor = .ok roots') :
    ∃ hd body path hs, Divides roots roots' factor { vectorize := some factor } hd body path hs ∧
      onlyLeaves body = true := by
  obtain ⟨path, hd, body, hs, -, ho, h⟩ := namedLoop_bind_eq_ok h
  simp only at h
  split at h
  · cases h
  · next hleaves =>
    split at h
    · cases h
    · next huntagged =>
      have hdivides := divides_of_tagOrSplit ho (tags_of_untagged huntagged) h
      exact ⟨hd, body, path, hs, hdivides, by simpa using hleaves⟩

structure Parallelizes (roots roots' : List Node) (hd : Header) (body : List Node) (path : Path)
    (hs : List Header) : Prop where
  occurs : Occurs (.loop hd body) roots path hs
  above : ∀ x ∈ hs, x.tags.parallel = false
  vectorize : hd.tags.vectorize = none
  below : containsParallel body = false
  result : roots' = setHeader { hd with tags := { hd.tags with parallel := true } } path roots

theorem parallelizes_of_parallelize {dim : String} (h : parallelize roots dim = .ok roots') :
    ∃ hd body path hs, Parallelizes roots roots' hd body path hs := by
  obtain ⟨path, hd, body, hs, -, ho, h⟩ := namedLoop_bind_eq_ok h
  simp only at h
  split at h
  · cases h
  · next habove =>
    split at h
    · cases h
    · split at h
      · cases h
      · next hvectorize =>
        split at h
        · cases h
        · next hbelow =>
          cases h
          refine ⟨hd, body, path, hs, ho, ?_, by simpa using hvectorize, by simpa using hbelow, rfl⟩
          rw [← ho.above_eq]
          simpa using habove

end Inversion

section Effect

variable {p : Program} {roots roots' : List Node} (hsound : Sound p roots)
include hsound

theorem exists_tiling {path : Path} {hd : Header} {body : List Node} {hs : List Header}
    (ho : Occurs (.loop hd body) roots path hs) {s : FixedRange} {factor : Nat} (hfactor : 1 < factor) {tags : Tags}
    (hsplits : Splits roots roots' factor tags hd body path s) : ∃ outer inner value clamp body',
      Tiling p (scope [] hs) (dimsAll roots) hd body s factor outer inner value clamp body' ∧
      Replaces (.loop hd body)
        (.loop (outerHeader hd s factor outer) [.loop (innerHeader factor inner clamp tags) body'])
        roots roots' hs := by
  obtain ⟨outer, inner, value, clamp, body', ht, hr⟩ := hsplits.exists_tiled ho
  have hsub := ho.dims_sublist
  have hnodup := hsound.dims.sublist hsub
  rw [dims, List.nodup_append] at hnodup
  have hspares := spares_of_tiled ht hnodup.2.1 fun a ha => hsub.subset (List.mem_append_right _ ha)
  refine ⟨outer, inner, value, clamp, body',
    ⟨ht, hsplits.clamp, hsplits.range, hfactor, hsplits.extent, fun a ha => hsub.subset ?_, (ho.tidy hsound.tidy).2,
      hspares⟩, hr⟩
  rcases List.mem_cons.1 ha with rfl | ha
  · exact List.mem_append_right _ List.mem_cons_self
  · exact List.mem_append_left _ ((mem_scope.1 ha).resolve_left List.not_mem_nil)

theorem conserves_splits {path : Path} {hd : Header} {body : List Node} {hs : List Header}
    (ho : Occurs (.loop hd body) roots path hs) {s : FixedRange} {factor : Nat} (hfactor : 1 < factor)
    {tags : Tags} (hsplits : Splits roots roots' factor tags hd body path s) : Conserves p roots roots' := by
  obtain ⟨outer, inner, value, clamp, body', ht, hr⟩ := exists_tiling hsound ho hfactor hsplits
  have hfresh : ([outer, inner] ++ dimsAll roots).Nodup := by
    refine List.nodup_cons.2 ⟨fun hmem => ?_, List.nodup_cons.2 ⟨fun hmem => ?_, hsound.dims⟩⟩
    · rcases List.mem_cons.1 hmem with rfl | hmem
      · exact ht.freshInner List.mem_cons_self
      · exact ht.freshOuter hmem
    · exact ht.freshInner (List.mem_cons_of_mem _ hmem)
  refine conserves_of_replaces hsound hr (fun env => ?_) (fun _ => ht.tidy_tiles) ?_ hfresh ?_
  · rw [ht.points_eq]
  · simp only [leaves, leavesAll, List.append_nil]
    exact leavesAll_substituteAll body ht.body_eq
  · rw [dims, dimsAll, dims, dimsAll, List.append_nil, dimsAll_substituteAll body ht.body_eq]
    exact (((List.sublist_cons_self hd.dim _).cons_cons inner).cons_cons outer).subperm

theorem conserves_divides {factor : Nat} {tags : Tags} {hd : Header} {body : List Node} {path : Path}
    {hs : List Header} (h : Divides roots roots' factor tags hd body path hs) : Conserves p roots roots' := by
  rcases h.effect with ⟨rfl, -⟩ | ⟨s, hsplits⟩
  · exact conserves_of_header hsound (h.occurs.replaces fun _ => .loop { hd with tags } body) rfl rfl fun env => rfl
  · exact conserves_splits hsound h.occurs h.large hsplits

theorem conserves_tile {dim : String} {factor : Nat} (h : tile roots dim factor = .ok roots') :
    Conserves p roots roots' := by
  obtain ⟨hd, body, path, hs, hdivides⟩ := divides_of_tile h
  exact conserves_divides hsound hdivides

theorem conserves_unroll {dim : String} {factor : Nat} (h : unroll roots dim factor = .ok roots') :
    Conserves p roots roots' := by
  obtain ⟨hd, body, path, hs, hdivides⟩ := divides_of_unroll h
  exact conserves_divides hsound hdivides

theorem conserves_vectorize {dim : String} {factor : Nat} (h : vectorize roots dim factor = .ok roots') :
    Conserves p roots roots' := by
  obtain ⟨hd, body, path, hs, hdivides, -⟩ := divides_of_vectorize h
  exact conserves_divides hsound hdivides

theorem conserves_parallelize {dim : String} (h : parallelize roots dim = .ok roots') :
    Conserves p roots roots' := by
  obtain ⟨hd, body, path, hs, hparallel⟩ := parallelizes_of_parallelize h
  rw [hparallel.result]
  exact conserves_of_header hsound (hparallel.occurs.replaces_header _) rfl rfl fun env => rfl

end Effect

end LoopNest

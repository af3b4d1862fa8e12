import LoopNest.Proofs.Cost.Charge
import LoopNest.Proofs.Transform.Effect
import Mathlib.Tactic.Ring

namespace LoopNest

open Node

structure Divided (pre post post' : List Header) (hd : Header) (s : FixedRange) (factor : Nat) (outer inner : String)
    (value : Affine) (clamp : Option Affine) : Prop where
  unclamped : hd.clamp = none
  range : ∀ env, hd.lower.value env = s.lower ∧ hd.upper.value env - hd.lower.value env = s.extent
  large : 1 < factor
  factor_lt : (factor : Int) < s.extent
  value_eq : tileValue outer inner factor s.lower = .ok value
  clamp_eq : remainder outer factor s.extent = .ok clamp
  free : ∀ x ∈ pre, x.Free hd.dim
  bound : List.Forall₂ (fun x x' => x.Bound (fun a => if a = hd.dim then value else .var a) x' ∧ x'.dim = x.dim)
    post post'

inductive Restacks (hs hs' : List Header) : Prop
  | renames (rho : String → String) {ks : List Header}
    (h : List.Forall₂ (fun x x' => x.Carries (fun e a => e (rho a)) x' ∧ x'.dim = rho x.dim) hs ks)
    (hperm : ks.Perm hs')
  | divides {pre post post' : List Header} {hd : Header} {s : FixedRange} {factor : Nat} {outer inner : String}
    {value : Affine} {clamp : Option Affine} {tags : Tags} (hbefore : hs = pre ++ hd :: post)
    (hafter : hs' = pre ++ outerHeader hd s factor outer :: innerHeader factor inner clamp tags :: post')
    (h : Divided pre post post' hd s factor outer inner value clamp)

theorem Restacks.of_perm {hs hs' : List Header} (h : hs.Perm hs') : Restacks hs hs' := by
  refine .renames id (List.forall₂_same.2 fun x _ => ⟨?_, rfl⟩) h
  exact .of_limits fun f _ e => rfl

section Stacks

variable {p : Program} {roots roots' : List Node}

def StacksFrom (roots roots' : List Node) : Prop :=
  ∀ t' ∈ leafStacksAll roots', ∃ t ∈ leafStacksAll roots,
    t.2.computation = t'.2.computation ∧ Restacks t.1 t'.1

theorem stacksFrom_of_header {hd hd' : Header} {body : List Node} {path : Path} {hs : List Header}
    (ho : Occurs (.loop hd body) roots path hs) (hr : Replaces (.loop hd body) (.loop hd' body) roots roots' hs)
    (hdim : hd'.dim = hd.dim) (hlower : hd'.lower = hd.lower) (hupper : hd'.upper = hd.upper)
    (hclamp : hd'.clamp = hd.clamp) : StacksFrom roots roots' := by
  intro t' ht'
  rcases hr.mem_leafStacks ht' with ht | ⟨u', hu', rfl⟩
  · exact ⟨t', ht, rfl, .of_perm (List.Perm.refl _)⟩
  · obtain ⟨u, hu, rfl⟩ := mem_leafStacks_loop.1 hu'
    refine ⟨_, ho.mem_leafStacks_append (mem_leafStacks_loop.2 ⟨u, hu, rfl⟩), rfl, ?_⟩
    have hsame (x : Header) : x.Carries (fun e a => e (id a)) x ∧ x.dim = id x.dim :=
      ⟨.of_limits fun f _ e => rfl, rfl⟩
    refine .renames id (List.rel_append (List.forall₂_same.2 fun x _ => hsame x) (.cons ?_ ?_)) (List.Perm.refl _)
    · obtain ⟨hcarries, -⟩ := hsame hd
      refine ⟨⟨?_, ?_, ?_⟩, hdim⟩
      · rw [hlower]
        exact hcarries.lower
      · rw [hupper]
        exact hcarries.upper
      · rw [hclamp]
        exact hcarries.clamp
    · exact List.forall₂_same.2 fun x _ => hsame x

theorem stacksFrom_of_swaps {outer inner : Header} {mids : List Header} {body : List Node} {path rest : Path}
    {hs : List Header} (h : Swaps roots roots' outer inner mids body path rest hs) : StacksFrom roots roots' := by
  rw [h.result]
  intro t' ht'
  rcases (replaces_swap h.occurs h.inside).mem_leafStacks ht' with ht' | ⟨u', hu', rfl⟩
  · exact ⟨t', ht', rfl, .of_perm (List.Perm.refl _)⟩
  · have hstack (a b : Header) {u : List Header × Leaf} : u ∈ (Node.loop a (nest mids [.loop b body])).leafStacks ↔
        ∃ v ∈ leafStacksAll body, u = (a :: mids ++ b :: v.1, v.2) := by
      have hnest : u ∈ leafStacksAll (nest (a :: mids ++ [b]) body) ↔ _ := mem_leafStacksAll_nest
      rw [nest_snoc, nest, leafStacksAll, leafStacksAll, List.append_nil] at hnest
      simpa using hnest
    obtain ⟨v, hv, rfl⟩ := (hstack inner outer).1 hu'
    refine ⟨_, h.occurs.mem_leafStacks_append ((hstack outer inner).2 ⟨v, hv, rfl⟩), rfl, .of_perm ?_⟩
    apply List.Perm.append_left
    calc
      (outer :: mids ++ inner :: v.1).Perm (outer :: inner :: (mids ++ v.1)) := List.perm_middle.cons outer
      List.Perm _ (inner :: outer :: (mids ++ v.1)) := List.Perm.swap inner outer _
      List.Perm _ (inner :: mids ++ outer :: v.1) := List.perm_middle.symm.cons inner

variable (hsound : Sound p roots)
include hsound

theorem stacksFrom_of_splits {path : Path} {hd : Header} {body : List Node} {hs : List Header}
    (ho : Occurs (.loop hd body) roots path hs) {s : FixedRange} {factor : Nat} (hfactor : 1 < factor) {tags : Tags}
    (hsplits : Splits roots roots' factor tags hd body path s) : StacksFrom roots roots' := by
  obtain ⟨outer, inner, value, clamp, body', ht, hr⟩ := exists_tiling hsound ho hfactor hsplits
  intro t' ht'
  rcases hr.mem_leafStacks ht' with ht' | ⟨u', hu', rfl⟩
  · exact ⟨t', ht', rfl, .of_perm (List.Perm.refl _)⟩
  · obtain ⟨v', hv', rfl⟩ := mem_leafStacks_loop.1 hu'
    rw [leafStacksAll, leafStacksAll, List.append_nil] at hv'
    obtain ⟨w', hw', rfl⟩ := mem_leafStacks_loop.1 hv'
    obtain ⟨w, hw, hc, hbound⟩ := leafStacksAll_substituteAll body ht.body_eq hw'
    have hmem := ho.mem_leafStacks_append (mem_leafStacks_loop.2 ⟨w, hw, rfl⟩)
    refine ⟨_, hmem, hc, .divides rfl rfl ⟨ht.unclamped, ht.range, hfactor, hsplits.factor_lt, ht.value_eq,
      ht.clamp_eq, ?_, hbound⟩⟩
    have hdims := hsound.dims.sublist (dimsAll_sublist_of_stack roots hmem)
    rw [List.map_append, List.nodup_append] at hdims
    apply (ho.headersTidy hsound.tidy).free List.not_mem_nil
    intro habove
    exact hdims.2.2 _ habove _ List.mem_cons_self rfl

theorem stacksFrom_of_divides {factor : Nat} {tags : Tags} {hd : Header} {body : List Node} {path : Path}
    {hs : List Header} (h : Divides roots roots' factor tags hd body path hs) : StacksFrom roots roots' := by
  rcases h.effect with ⟨rfl, -⟩ | ⟨s, hsplits⟩
  · exact stacksFrom_of_header h.occurs (h.occurs.replaces fun _ => .loop { hd with tags } body) rfl rfl rfl rfl
  · exact stacksFrom_of_splits hsound h.occurs h.large hsplits

theorem stacksFrom_of_moves {rest : List Node} {rho : String → String} {outer kept moved : List Header}
    {n n' : Node} (h : Moves roots rest roots' rho outer kept moved n n') : StacksFrom roots roots' := by
  intro t' ht'
  -- a stack of the result was there before, or leads into the branch that has been moved
  rcases h.inserts.mem_leafStacks ht' with ht' | ⟨u', hu', rfl⟩
  · exact ⟨t', h.removes.leafStacks_subset ht', rfl, .of_perm (List.Perm.refl _)⟩
  · obtain ⟨u, hu, hc, hbound⟩ := leafStacks_substitute n h.substitute hu'
    obtain ⟨path, ho, -⟩ := h.from_place
    refine ⟨_, ho.mem_leafStacks_append hu, hc, .renames rho ?_ (List.Perm.refl _)⟩
    have hnodup := h.nodup_before hsound
    have hcarried {x x' : Header} (hb : x.Bound (fun a => .var (rho a)) x') :
        x.Carries (fun e a => e (rho a)) x' := by
      simpa only [Affine.value_var] using Header.Carries.of_bound hb
    refine List.rel_append (List.rel_append (List.forall₂_same.2 fun x hx => ?_) ?_) ?_
    · refine ⟨.of_limits fun f hf e => Affine.value_congr_atoms fun a ha => ?_, ?_⟩
      · -- headers of the loops around mention none of the loops that the branch has left
        rw [h.fixes]
        intro hmoved
        refine (headersTidy_append.1 (ho.headersTidy hsound.tidy)).1.free List.not_mem_nil ?_ x hx f hf ha
        intro houter
        rw [List.map_append, List.append_assoc, List.nodup_append] at hnodup
        exact hnodup.2.2 a houter a (List.mem_append_left _ hmoved) rfl
      · exact (h.fixes_outer hsound _ (List.mem_map_of_mem hx)).symm
    · exact h.matched.flip.imp fun x x' hpair => ⟨hcarried hpair.1.1, hpair.2.symm⟩
    · obtain ⟨hlength, hzip⟩ := List.forall₂_iff_zip.1 hbound
      refine List.forall₂_iff_zip.2 ⟨hlength, fun {x x'} hx => ⟨hcarried (hzip hx).1, (hzip hx).2.trans ?_⟩⟩
      have hdim : x.dim ∈ n.dims := (dims_sublist_of_stack n hu).subset (List.mem_map_of_mem (List.of_mem_zip hx).1)
      refine (h.fixes _ fun hmoved => ?_).symm
      rw [List.nodup_append] at hnodup
      refine hnodup.2.2 x.dim ?_ x.dim hdim rfl
      rw [List.map_append]
      exact List.mem_append_right _ hmoved

theorem stacksFrom_of_applyTo {t : Transformation} (h : t.applyTo p roots = .ok roots') :
    StacksFrom roots roots' := by
  cases change_of_applyTo hsound h with
  | divides h => exact stacksFrom_of_divides hsound h
  | parallelizes h =>
    rw [h.result]
    exact stacksFrom_of_header h.occurs (h.occurs.replaces_header _) rfl rfl rfl rfl
  | swaps h => exact stacksFrom_of_swaps h
  | moves h => exact stacksFrom_of_moves hsound h

end Stacks

section Tiles

theorem FixedRange.tiles_spec (s : FixedRange) {factor : Nat} (hfactor : 1 < factor) :
    factor * (s.tiles factor - 1) < s.extent ∧ s.extent ≤ factor * s.tiles factor := by
  have hpos : (0 : Int) < factor := by omega
  rw [Int.mul_comm, Int.mul_comm (factor : Int)]
  constructor
  · rw [← not_le, ← ceilDiv_le_iff hpos]
    exact not_le.2 (Int.sub_one_lt_iff.2 (Int.le_refl _))
  · exact (ceilDiv_le_iff hpos).1 (Int.le_refl _)

theorem mod_ne_zero_of_remainder {outer : String} {factor extent : Int} {c : Affine}
    (h : remainder outer factor extent = .ok (some c)) : extent % factor ≠ 0 := by
  intro hmod
  rw [remainder, if_pos hmod] at h
  cases h

def unsplit (dim : String) (value : Affine) (e : Valuation) : Valuation :=
  fun a => (if a = dim then value else .var a).value e

theorem unsplit_self (dim : String) (value : Affine) (e : Valuation) : unsplit dim value e dim = value.value e := by
  rw [unsplit, if_pos rfl]

theorem unsplit_of_ne {dim a : String} (hne : a ≠ dim) (value : Affine) (e : Valuation) :
    unsplit dim value e a = e a := by
  rw [unsplit, if_neg hne, Affine.value_var]

namespace Divided

variable {pre post post' : List Header} {hd : Header} {s : FixedRange} {factor : Nat} {outer inner : String}
  {value : Affine} {clamp : Option Affine} {tags : Tags}
  (h : Divided pre post post' hd s factor outer inner value clamp)
include h

theorem two_le_tiles : 2 ≤ s.tiles factor := by
  have hlt := h.factor_lt
  obtain ⟨-, hall⟩ := s.tiles_spec h.large
  by_contra hfew
  have hle : (factor : Int) * s.tiles factor ≤ factor * 1 := Int.mul_le_mul_of_nonneg_left (by omega) (by omega)
  omega

theorem clamp_cases : (clamp = none ∧ s.extent = factor * s.tiles factor) ∨
    ∃ c, clamp = some c ∧ s.extent < factor * s.tiles factor ∧ ∀ e, c.value e = s.extent - factor * e outer := by
  obtain ⟨hlast, hall⟩ := s.tiles_spec h.large
  have hlarge := h.large
  rcases remainder_eq_ok h.clamp_eq with ⟨hnone, hmod⟩ | ⟨c, hsome, -, -, hvalue⟩
  · refine Or.inl ⟨hnone, ?_⟩
    obtain ⟨q, hq⟩ := Int.dvd_of_emod_eq_zero hmod
    rw [hq] at hlast hall
    have hlow := Int.lt_of_mul_lt_mul_left hlast (by omega)
    have hhigh := Int.le_of_mul_le_mul_left hall (by omega)
    rw [hq]
    congr 1
    omega
  · refine Or.inr ⟨c, hsome, ?_, hvalue⟩
    have hmod := mod_ne_zero_of_remainder (hsome ▸ h.clamp_eq)
    apply lt_of_le_of_ne hall
    intro heq
    rw [heq, Int.mul_emod_right] at hmod
    exact hmod rfl

theorem few_iff : s.extent ≤ 2 * factor ↔ s.tiles factor = 2 := by
  obtain ⟨hlast, hall⟩ := s.tiles_spec h.large
  have hlarge := h.large
  have hmany := h.two_le_tiles
  constructor
  · intro hfew
    have hlow : s.tiles factor - 1 < 2 := by
      apply Int.lt_of_mul_lt_mul_left _ (Int.natCast_nonneg factor)
      omega
    omega
  · intro htwo
    rw [htwo] at hall
    omega

omit h in
theorem outer_fixed (hmany : 2 ≤ s.tiles factor) : (outerHeader hd s factor outer).Fixed where
  lower e := Affine.value_ofInt 0 e
  upper e := Affine.value_ofInt _ e
  nonempty := by
    change 0 < s.tiles factor
    omega

omit h in
theorem inner_fixed (hlarge : 1 < factor) : (innerHeader factor inner clamp tags).Fixed where
  lower e := Affine.value_ofInt 0 e
  upper e := Affine.value_ofInt factor e
  nonempty := by
    change (0 : Int) < factor
    omega

theorem mean_outer (e : Valuation) : (outerHeader hd s factor outer).mean e = s.tiles factor := by
  rw [(outer_fixed h.two_le_tiles).mean_of_unclamped h.unclamped]
  exact congrArg Int.cast (Int.sub_zero (s.tiles factor))

omit h in
theorem mean_inner {rest : Int} (hrest : 0 ≤ rest) {e : Valuation}
    (htop : (innerHeader factor inner clamp tags).top e = rest) :
    (innerHeader factor inner clamp tags).mean e = ((factor + rest : Int) : ℚ) / 2 := by
  have hpos : (0 : ℚ) ≤ (factor + rest : Int) := by
    rw [← Int.cast_zero, Int.cast_le]
    omega
  have hsum : (innerHeader factor inner clamp tags).extent +
      ((innerHeader factor inner clamp tags).top e - (innerHeader factor inner clamp tags).lower.constant) =
        factor + rest := by
    rw [htop]
    change ((factor : Int) - 0) + (rest - 0) = _
    omega
  rw [Header.mean, hsum]
  exact max_eq_left (div_nonneg hpos (by norm_num))

theorem charge_tiles {e : Valuation} (he : e outer = s.tiles factor - 1) :
    charge [outerHeader hd s factor outer, innerHeader factor inner clamp tags] e ≤ s.extent ∧
      (charge [outerHeader hd s factor outer, innerHeader factor inner clamp tags] e = s.extent ↔
        ∀ c, clamp = some c → s.extent ≤ 2 * factor) := by
  obtain ⟨hlast, -⟩ := s.tiles_spec h.large
  have hmany := h.two_le_tiles
  simp only [charge, List.map_cons, List.map_nil, List.prod_cons, List.prod_nil, mul_one, h.mean_outer]
  rcases h.clamp_cases with ⟨rfl, hall⟩ | ⟨c, rfl, hcut, hvalue⟩
  · have hmean : (innerHeader factor inner none tags).mean e = (factor : Int) := by
      rw [(inner_fixed h.large).mean_of_unclamped rfl]
      exact congrArg Int.cast (Int.sub_zero (factor : Int))
    have hproduct : (s.tiles factor : ℚ) * (innerHeader factor inner none tags).mean e = s.extent := by
      rw [hmean, hall, Int.cast_mul, mul_comm]
    refine ⟨hproduct.le, fun _ c hc => ?_, fun _ => hproduct⟩
    cases hc
  · obtain ⟨rest, hrest⟩ : ∃ rest, rest = s.extent - factor * (s.tiles factor - 1) := ⟨_, rfl⟩
    have hrange : 0 < rest ∧ rest < factor := by
      rw [Int.mul_sub, Int.mul_one] at hlast hrest
      omega
    have htop : (innerHeader factor inner (some c) tags).top e = rest := by
      simp only [Header.top, innerHeader, Affine.value_ofInt, hvalue, he, ← hrest]
      omega
    -- Every tile but the first two adds what the last one lacks.
    have hdouble : s.tiles factor * (factor + rest) = s.extent * 2 - (s.tiles factor - 2) * (factor - rest) := by
      rw [hrest]
      ring
    have hloss : 0 ≤ (s.tiles factor - 2) * (factor - rest) := Int.mul_nonneg (by omega) (by omega)
    have hcast : (s.tiles factor : ℚ) * (((factor + rest : Int) : ℚ) / 2) =
        ((s.tiles factor * (factor + rest) : Int) : ℚ) / 2 := by
      rw [Int.cast_mul, mul_div_assoc]
    rw [mean_inner hrange.1.le htop, hcast]
    constructor
    · rw [div_le_iff₀ (by norm_num), hdouble]
      exact_mod_cast Int.sub_le_self _ hloss
    · rw [div_eq_iff (by norm_num), hdouble]
      constructor
      · intro hexact c' _
        have hzero : (s.tiles factor - 2) * (factor - rest) = 0 := by
          have : s.extent * 2 - (s.tiles factor - 2) * (factor - rest) = s.extent * 2 := by exact_mod_cast hexact
          omega
        apply h.few_iff.2
        rcases Int.mul_eq_zero.1 hzero with htwo | hfull
        · omega
        · omega
      · intro hfew
        rw [h.few_iff.1 (hfew c rfl)]
        push_cast
        ring

theorem carries : List.Forall₂ (fun x x' => x.Carries (unsplit hd.dim value) x' ∧ x'.dim = x.dim)
    (pre ++ post) (pre ++ post') := by
  apply List.rel_append
  · refine List.forall₂_same.2 fun x hx => ⟨.of_limits fun f hf e => Affine.value_congr_atoms fun a ha => ?_, rfl⟩
    rw [unsplit_of_ne]
    rintro rfl
    exact h.free x hx f hf ha
  · exact h.bound.imp fun x x' hx => ⟨.of_bound hx.1, hx.2⟩

theorem extent_eq (hfixed : hd.Fixed) : hd.lower.constant = s.lower ∧ hd.extent = s.extent := by
  obtain ⟨hlower, hextent⟩ := h.range fun _ => 0
  rw [hfixed.lower] at hlower hextent
  rw [hfixed.upper] at hextent
  exact ⟨hlower, hextent⟩

section Stack

variable {hs' : List Header} (houter : outerHeader hd s factor outer ∈ hs') (hdims' : (hs'.map Header.dim).Nodup)
include houter hdims'

theorem twoTiles_inner_iff :
    (innerHeader factor inner clamp tags).TwoTiles hs' ↔ ∀ c, clamp = some c → s.extent ≤ 2 * factor := by
  rcases h.clamp_cases with ⟨rfl, -⟩ | ⟨c, rfl, -, hvalue⟩
  · exact ⟨fun _ => nofun, fun _ => nofun⟩
  · have hfirst {e : Valuation} (he : Starts hs' e) : c.value e = s.extent := by
      have hzero : e outer = 0 := he _ houter
      rw [hvalue, hzero]
      omega
    constructor
    · intro htwo _ _
      obtain ⟨e, he⟩ := exists_valuation hdims' fun x => x.lower.constant
      rw [← hfirst he]
      exact htwo c rfl e he
    · rintro hfew _ ⟨⟩ e he
      rw [hfirst he]
      exact hfew c rfl

theorem clamps_inner {c : Affine} (hc : clamp = some c) : Clamps hs' (innerHeader factor inner clamp tags) c := by
  subst hc
  have hiff : (innerHeader factor inner (some c) tags).TwoTiles hs' ↔ _ := h.twoTiles_inner_iff houter hdims'
  have hlt := h.factor_lt
  rcases h.clamp_cases with ⟨hnone, -⟩ | ⟨c', hsome, -, hvalue⟩
  · cases hnone
  · cases hsome
    constructor
    · intro e e' hle
      have hscaled := Int.mul_le_mul_of_nonneg_left (hle _ houter) (Int.natCast_nonneg factor)
      change factor * e outer ≤ factor * e' outer at hscaled
      rw [hvalue, hvalue]
      omega
    · intro e he
      have hzero : e outer = 0 := he _ houter
      rw [hvalue, hzero]
      change (factor : Int) < _
      omega
    · intro htwo e e' hsame
      have hfew : s.extent ≤ 2 * factor := by
        refine hiff.1 ?_ c rfl
        rintro _ ⟨⟩
        exact htwo
      have hshort : (outerHeader hd s factor outer).extent ≤ 2 := by
        change s.tiles factor - 0 ≤ 2
        rw [h.few_iff.1 hfew]
        decide
      have hequal : e outer = e' outer := hsame _ houter hshort
      rw [hvalue, hvalue, hequal]

omit hdims' in
theorem drawn_split (hfixed : hd.Fixed) (hinner : innerHeader factor inner clamp tags ∈ hs') :
    hd.Drawn (unsplit hd.dim value) hs' := by
  have hlarge := h.large
  have hlt := h.factor_lt
  obtain ⟨hlower, hextent⟩ := h.extent_eq hfixed
  have hsplit (e : Valuation) : unsplit hd.dim value e hd.dim = factor * e outer + e inner + s.lower := by
    rw [unsplit_self, (tileValue_eq_ok h.value_eq).2]
  constructor
  · intro e e' hle
    have hscaled := Int.mul_le_mul_of_nonneg_left (hle _ houter) (Int.natCast_nonneg factor)
    have hplaced := hle _ hinner
    rw [hsplit, hsplit]
    change factor * e outer ≤ factor * e' outer at hscaled
    change e inner ≤ e' inner at hplaced
    omega
  · intro e he
    have hfirst : e outer = 0 := he _ houter
    have hsecond : e inner = 0 := he _ hinner
    rw [hsplit, hfirst, hsecond, hlower]
    omega
  · intro e he
    have hfirst : e outer = s.tiles factor - 1 := he _ houter
    have hsecond : e inner = factor - 1 := he _ hinner
    have hall := (s.tiles_spec h.large).2
    have hsize : hd.upper.constant = s.lower + s.extent := by
      rw [← hextent, ← hlower, Header.extent]
      omega
    rw [hsplit, hfirst, hsecond, hsize, Int.mul_sub, Int.mul_one]
    omega
  · intro e _ hshort
    omega
  · intro e e' _ hshort
    omega

end Stack

end Divided

end Tiles

section Account

variable {hs hs' : List Header} {instances : Nat}

theorem Accounted.rename {rho : String → String} {ks : List Header} (ha : Accounted hs instances)
    (h : List.Forall₂ (fun x x' => x.Carries (fun e a => e (rho a)) x' ∧ x'.dim = rho x.dim) hs ks)
    (hperm : ks.Perm hs') (hdims : (hs.map Header.dim).Nodup) (hdims' : (hs'.map Header.dim).Nodup) :
    Accounted hs' instances := by
  have hdrawn : ∀ x ∈ hs, x.Drawn (fun e a => e (rho a)) hs' := by
    intro x hx
    obtain ⟨x', hx', hcarries, hdim⟩ := exists_of_forall₂ h hx
    exact hcarries.drawn (ha.fixed x hx) (hperm.subset hx') fun e => by rw [hdim]
  have hexchanges : Exchanges (fun e a => e (rho a)) hs hs' [] hs [] ks :=
    { before := List.Perm.refl hs
      after := hperm.symm
      dims := hdims
      dims' := hdims'
      drawn := hdrawn
      carries := h.imp fun _ _ hx => hx.1
      unclamped := fun x hx => absurd hx List.not_mem_nil
      fixed := fun x hx => absurd hx List.not_mem_nil
      clamps := fun x hx => absurd hx List.not_mem_nil
      le := fun e e' _ => le_refl _
      eq_iff := fun e e' _ => ⟨fun _ x hx => absurd hx List.not_mem_nil, fun _ => rfl⟩ }
  exact ha.exchange hexchanges

theorem Accounted.divide {pre post post' : List Header} {hd : Header} {s : FixedRange} {factor : Nat}
    {outer inner : String} {value : Affine} {clamp : Option Affine} {tags : Tags}
    (ha : Accounted (pre ++ hd :: post) instances) (h : Divided pre post post' hd s factor outer inner value clamp)
    (hafter : hs' = pre ++ outerHeader hd s factor outer :: innerHeader factor inner clamp tags :: post')
    (hdims : ((pre ++ hd :: post).map Header.dim).Nodup) (hdims' : (hs'.map Header.dim).Nodup) :
    Accounted hs' instances := by
  have hkept : (pre ++ hd :: post).Perm ([hd] ++ (pre ++ post)) := List.perm_middle
  have hkept' :
      hs'.Perm ([outerHeader hd s factor outer, innerHeader factor inner clamp tags] ++ (pre ++ post')) := by
    rw [hafter]
    exact List.perm_middle.trans (List.perm_middle.cons _)
  have hmem {x : Header} : x ∈ pre ++ hd :: post ↔ x = hd ∨ x ∈ pre ++ post := hkept.mem_iff.trans List.mem_cons
  have houter : outerHeader hd s factor outer ∈ hs' := by simp [hafter]
  have hinner : innerHeader factor inner clamp tags ∈ hs' := by simp [hafter]
  have hfixed : hd.Fixed := ha.fixed hd (hmem.2 (Or.inl rfl))
  have hdrawn : ∀ x ∈ pre ++ hd :: post, x.Drawn (unsplit hd.dim value) hs' := by
    intro x hx
    rcases hmem.1 hx with rfl | hx
    · exact h.drawn_split houter hfixed hinner
    · have hne : x.dim ≠ hd.dim := by
        intro heq
        have hfresh := (List.nodup_cons.1 ((hkept.map Header.dim).nodup_iff.1 hdims)).1
        exact hfresh (heq ▸ List.mem_map_of_mem hx)
      obtain ⟨x', hx', hcarried, hdim⟩ := exists_of_forall₂ h.carries hx
      have hx'' : x' ∈ hs' := hkept'.mem_iff.2 (List.mem_append_right _ hx')
      refine hcarried.drawn (ha.fixed x (hmem.2 (Or.inr hx))) hx'' fun e => ?_
      rw [unsplit_of_ne hne, hdim]
  have hgone (e : Valuation) : charge [hd] e = s.extent := by
    simp only [charge, List.map_cons, List.map_nil, List.prod_cons, List.prod_nil, mul_one,
      hfixed.mean_of_unclamped h.unclamped, (h.extent_eq hfixed).2]
  have hexchanges : Exchanges (unsplit hd.dim value) (pre ++ hd :: post) hs' [hd] (pre ++ post)
      [outerHeader hd s factor outer, innerHeader factor inner clamp tags] (pre ++ post') :=
    { before := hkept
      after := hkept'
      dims := hdims
      dims' := hdims'
      drawn := hdrawn
      carries := h.carries.imp fun _ _ hx => hx.1
      unclamped := List.forall_mem_singleton.2 h.unclamped
      fixed := List.forall_mem_cons.2 ⟨Divided.outer_fixed h.two_le_tiles,
        List.forall_mem_singleton.2 (Divided.inner_fixed h.large)⟩
      clamps := by
        refine List.forall_mem_cons.2 ⟨fun c hc => ?_, List.forall_mem_singleton.2 fun c hc => ?_⟩
        · cases h.unclamped.symm.trans hc
        · exact h.clamps_inner houter hdims' hc
      le := fun e e' he => by
        rw [hgone]
        exact (h.charge_tiles (he _ houter)).1
      eq_iff := fun e e' he => by
        rw [hgone, (h.charge_tiles (he _ houter)).2, List.forall_mem_cons, List.forall_mem_singleton,
          h.twoTiles_inner_iff houter hdims']
        refine (and_iff_right fun c hc => ?_).symm
        cases h.unclamped.symm.trans hc }
  exact ha.exchange hexchanges

theorem Accounted.restack (ha : Accounted hs instances) (h : Restacks hs hs') (hdims : (hs.map Header.dim).Nodup)
    (hdims' : (hs'.map Header.dim).Nodup) : Accounted hs' instances := by
  cases h with
  | renames rho h hperm => exact ha.rename h hperm hdims hdims'
  | divides hbefore hafter h =>
    subst hbefore
    exact ha.divide h hafter hdims hdims'

end Account

end LoopNest

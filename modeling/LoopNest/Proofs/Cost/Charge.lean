import LoopNest.Proofs.Affine.Canonical
import LoopNest.Proofs.Tree.Points
import Mathlib.Algebra.BigOperators.Group.List.Basic
import Mathlib.Algebra.Order.BigOperators.GroupWithZero.List
import Mathlib.Algebra.Order.Field.Rat
import Mathlib.Tactic.Linarith

/-!
What an estimate charges for the instances below a stack of loops with constant bounds: the product of the mean trip
counts, each in the middle between the counts of the first and of the last tile. A clamp that cuts the last of more
than two tiles makes the product smaller than the number of instances. Nothing else does.
-/

namespace LoopNest

namespace Header

structure Fixed (h : Header) : Prop where
  lower : ∀ e, h.lower.value e = h.lower.constant
  upper : ∀ e, h.upper.value e = h.upper.constant
  nonempty : h.lower.constant < h.upper.constant

def extent (h : Header) : Int := h.upper.constant - h.lower.constant

def mean (h : Header) (e : Valuation) : ℚ := max (((h.extent + (h.top e - h.lower.constant) : Int) : ℚ) / 2) 0

theorem mean_nonneg (h : Header) (e : Valuation) : 0 ≤ h.mean e := le_max_right _ _

theorem mean_mono {h h' : Header} {e e' : Valuation} (hlower : h.lower.constant = h'.lower.constant)
    (hupper : h.upper.constant = h'.upper.constant) (htop : h.top e ≤ h'.top e') : h.mean e ≤ h'.mean e' := by
  apply max_le_max_right
  apply div_le_div_of_nonneg_right _ (by norm_num)
  rw [Int.cast_le]
  unfold extent
  omega

theorem mean_congr {h h' : Header} {e e' : Valuation} (hlower : h.lower.constant = h'.lower.constant)
    (hupper : h.upper.constant = h'.upper.constant) (htop : h.top e = h'.top e') : h.mean e = h'.mean e' :=
  le_antisymm (mean_mono hlower hupper htop.le) (mean_mono hlower.symm hupper.symm htop.ge)

theorem Fixed.mean_of_unclamped {h : Header} (hf : h.Fixed) (hc : h.clamp = none) (e : Valuation) :
    h.mean e = h.extent := by
  have hlt := hf.nonempty
  have htop : h.top e - h.lower.constant = h.extent := by
    simp only [top, hc, hf.upper, extent]
  have hextent : (0 : ℚ) ≤ h.extent := by
    rw [← Int.cast_zero, Int.cast_le]
    unfold extent
    omega
  rw [mean, htop, Int.cast_add, add_self_div_two]
  exact max_eq_left hextent

end Header

def Starts (hs : List Header) (e : Valuation) : Prop := ∀ h ∈ hs, e h.dim = h.lower.constant

def Ends (hs : List Header) (e : Valuation) : Prop := ∀ h ∈ hs, e h.dim = h.upper.constant - 1

/-- The loop has at most two tiles, if it is clamped to what is left for the last one. -/
def Header.TwoTiles (hs : List Header) (h : Header) : Prop :=
  ∀ c, h.clamp = some c → ∀ e, Starts hs e → c.value e ≤ 2 * h.upper.constant

def charge (hs : List Header) (e : Valuation) : ℚ := (hs.map fun h => h.mean e).prod

theorem charge_nonneg (hs : List Header) (e : Valuation) : 0 ≤ charge hs e := by
  apply List.prod_nonneg
  intro x hx
  obtain ⟨h, -, rfl⟩ := List.mem_map.1 hx
  exact h.mean_nonneg e

theorem charge_append (hs ks : List Header) (e : Valuation) : charge (hs ++ ks) e = charge hs e * charge ks e := by
  rw [charge, List.map_append, List.prod_append, charge, charge]

theorem charge_perm {hs ks : List Header} (h : hs.Perm ks) (e : Valuation) : charge hs e = charge ks e :=
  (h.map _).prod_eq

theorem charge_mono {hs : List Header} {e e' : Valuation} (h : ∀ x ∈ hs, x.top e ≤ x.top e') :
    charge hs e ≤ charge hs e' := by
  apply List.prod_map_le_prod_map₀
  · exact fun x _ => x.mean_nonneg e
  · exact fun x hx => Header.mean_mono rfl rfl (h x hx)

theorem charge_congr {hs : List Header} {e e' : Valuation} (h : ∀ x ∈ hs, x.top e = x.top e') :
    charge hs e = charge hs e' :=
  le_antisymm (charge_mono fun x hx => (h x hx).le) (charge_mono fun x hx => (h x hx).ge)

theorem exists_valuation {hs : List Header} (hdims : (hs.map Header.dim).Nodup) (g : Header → Int) :
    ∃ e : Valuation, ∀ h ∈ hs, e h.dim = g h := by
  induction hs with
  | nil => exact ⟨fun _ => 0, nofun⟩
  | cons x hs ih =>
    obtain ⟨hx, hdims⟩ := List.nodup_cons.1 hdims
    obtain ⟨e, he⟩ := ih hdims
    refine ⟨Function.update e x.dim (g x), List.forall_mem_cons.2 ⟨Function.update_self _ _ _, fun h hh => ?_⟩⟩
    rw [Function.update_of_ne, he h hh]
    rintro heq
    exact hx (heq ▸ List.mem_map_of_mem hh)

/-- What a clamp of a loop in the stack is: less is left the further other loops have gone, a full tile is left in the
beginning, and if there are only two tiles, no loop matters that could be split again. -/
structure Clamps (hs : List Header) (h : Header) (c : Affine) : Prop where
  falls : ∀ e e' : Valuation, (∀ x ∈ hs, e x.dim ≤ e' x.dim) → c.value e' ≤ c.value e
  starts : ∀ e, Starts hs e → h.upper.constant < c.value e
  settled : (∀ e, Starts hs e → c.value e ≤ 2 * h.upper.constant) →
    ∀ e e' : Valuation, (∀ x ∈ hs, x.extent ≤ 2 → e x.dim = e' x.dim) → c.value e = c.value e'

theorem Clamps.congr {hs : List Header} {h : Header} {c : Affine} (hc : Clamps hs h c) {e e' : Valuation}
    (he : ∀ x ∈ hs, e x.dim = e' x.dim) : c.value e = c.value e' :=
  le_antisymm (hc.falls e' e fun x hx => (he x hx).ge) (hc.falls e e' fun x hx => (he x hx).le)

structure Accounted (hs : List Header) (instances : Nat) : Prop where
  fixed : ∀ h ∈ hs, h.Fixed
  clamps : ∀ h ∈ hs, ∀ c, h.clamp = some c → Clamps hs h c
  pos : 0 < instances
  le : ∀ e, Ends hs e → charge hs e ≤ instances
  eq_iff : ∀ e, Ends hs e → (charge hs e = instances ↔ ∀ h ∈ hs, h.TwoTiles hs)

section Change

variable {φ : Valuation → Valuation} {hs hs' : List Header} {h h' : Header} {c c' : Affine} {instances : Nat}

structure Header.Carries (φ : Valuation → Valuation) (h h' : Header) : Prop where
  lower : ∀ e, h'.lower.value e = h.lower.value (φ e)
  upper : ∀ e, h'.upper.value e = h.upper.value (φ e)
  clamp : (h.clamp = none ∧ h'.clamp = none) ∨
    ∃ c c', h.clamp = some c ∧ h'.clamp = some c' ∧ ∀ e, c'.value e = c.value (φ e)

namespace Header.Carries

theorem top (hc : h.Carries φ h') (e : Valuation) : h'.top e = h.top (φ e) := by
  rcases hc.clamp with ⟨hnone, hnone'⟩ | ⟨c, c', hsome, hsome', hvalue⟩
  · simp only [Header.top, hnone, hnone', hc.upper]
  · simp only [Header.top, hsome, hsome', hc.upper, hvalue]

theorem lower_eq (hc : h.Carries φ h') (hf : h.Fixed) : h'.lower.constant = h.lower.constant := by
  rw [← Affine.value_zero h'.lower, hc.lower, hf.lower]

theorem upper_eq (hc : h.Carries φ h') (hf : h.Fixed) : h'.upper.constant = h.upper.constant := by
  rw [← Affine.value_zero h'.upper, hc.upper, hf.upper]

theorem extent_eq (hc : h.Carries φ h') (hf : h.Fixed) : h'.extent = h.extent := by
  rw [extent, extent, hc.lower_eq hf, hc.upper_eq hf]

theorem fixed (hc : h.Carries φ h') (hf : h.Fixed) : h'.Fixed where
  lower e := by rw [hc.lower, hf.lower, hc.lower_eq hf]
  upper e := by rw [hc.upper, hf.upper, hc.upper_eq hf]
  nonempty := by
    rw [hc.lower_eq hf, hc.upper_eq hf]
    exact hf.nonempty

theorem mean (hc : h.Carries φ h') (hf : h.Fixed) (e : Valuation) : h'.mean e = h.mean (φ e) :=
  mean_congr (hc.lower_eq hf) (hc.upper_eq hf) (hc.top e)

theorem of_bound {m : String → Affine} (hb : h.Bound m h') : h.Carries (fun e a => (m a).value e) h' where
  lower e := Affine.value_bindVars e hb.lower
  upper e := Affine.value_bindVars e hb.upper
  clamp := hb.clamp.imp_right fun ⟨c, c', hc, hbind, hc'⟩ =>
    ⟨c, c', hc, hc', fun e => Affine.value_bindVars e hbind⟩

theorem of_limits (hvalue : ∀ f ∈ h.limits, ∀ e, f.value e = f.value (φ e)) : h.Carries φ h where
  lower := hvalue _ lower_mem_limits
  upper := hvalue _ upper_mem_limits
  clamp := by
    cases hc : h.clamp with
    | none => exact Or.inl ⟨rfl, rfl⟩
    | some c => exact Or.inr ⟨c, c, rfl, rfl, hvalue c (clamp_mem_limits hc)⟩

end Header.Carries

theorem charge_carried {ks ks' : List Header} (hcarries : List.Forall₂ (Header.Carries φ) ks ks')
    (hfixed : ∀ x ∈ ks, x.Fixed) (e : Valuation) : charge ks' e = charge ks (φ e) := by
  induction hcarries with
  | nil => rfl
  | cons hx _ ih =>
    obtain ⟨hfirst, hrest⟩ := List.forall_mem_cons.1 hfixed
    simp only [charge, List.map_cons, List.prod_cons] at ih ⊢
    rw [hx.mean hfirst, ih hrest]

structure Header.Drawn (φ : Valuation → Valuation) (hs' : List Header) (x : Header) : Prop where
  mono : ∀ e e' : Valuation, (∀ y ∈ hs', e y.dim ≤ e' y.dim) → φ e x.dim ≤ φ e' x.dim
  starts : ∀ e, Starts hs' e → φ e x.dim = x.lower.constant
  ends : ∀ e, Ends hs' e → x.upper.constant - 1 ≤ φ e x.dim
  ends_short : ∀ e, Ends hs' e → x.extent ≤ 2 → φ e x.dim = x.upper.constant - 1
  settled : ∀ e e' : Valuation, (∀ y ∈ hs', y.extent ≤ 2 → e y.dim = e' y.dim) → x.extent ≤ 2 →
    φ e x.dim = φ e' x.dim

theorem Header.Carries.drawn {x x' : Header} (hc : x.Carries φ x') (hf : x.Fixed) (hx' : x' ∈ hs')
    (hdim : ∀ e, φ e x.dim = e x'.dim) : x.Drawn φ hs' where
  mono e e' hle := by
    rw [hdim, hdim]
    exact hle x' hx'
  starts e he := by rw [hdim, he x' hx', hc.lower_eq hf]
  ends e he := by rw [hdim, he x' hx', hc.upper_eq hf]
  ends_short e he _ := by rw [hdim, he x' hx', hc.upper_eq hf]
  settled e e' hsame hshort := by
    rw [hdim, hdim]
    exact hsame x' hx' (hc.extent_eq hf ▸ hshort)

section Drawn

variable (hd : ∀ x ∈ hs, x.Drawn φ hs') (hdims' : (hs'.map Header.dim).Nodup)
include hd hdims'

theorem le_of_starts (hc : Clamps hs h c) (hvalue : ∀ e, c'.value e = c.value (φ e)) {bound : Int}
    (hle : ∀ e, Starts hs' e → c'.value e ≤ bound) : ∀ e, Starts hs e → c.value e ≤ bound := by
  intro e he
  obtain ⟨first, hfirst⟩ := exists_valuation hdims' fun x => x.lower.constant
  have hsame : c.value e = c.value (φ first) := by
    apply hc.congr
    intro x hx
    rw [he x hx, (hd x hx).starts first hfirst]
  rw [hsame, ← hvalue]
  exact hle first hfirst

theorem Clamps.carry (hc : Clamps hs h c) (hvalue : ∀ e, c'.value e = c.value (φ e))
    (hupper : h'.upper.constant = h.upper.constant) : Clamps hs' h' c' := by
  constructor
  · intro e e' hle
    rw [hvalue, hvalue]
    exact hc.falls _ _ fun x hx => (hd x hx).mono e e' hle
  · intro e he
    rw [hvalue, hupper]
    exact hc.starts _ fun x hx => (hd x hx).starts e he
  · intro htwo e e' hsame
    rw [hvalue, hvalue]
    rw [hupper] at htwo
    exact hc.settled (le_of_starts hd hdims' hc hvalue htwo) _ _ fun x hx => (hd x hx).settled e e' hsame

theorem twoTiles_iff (hcarries : h.Carries φ h') (hf : h.Fixed) (hclamps : ∀ c, h.clamp = some c → Clamps hs h c) :
    h'.TwoTiles hs' ↔ h.TwoTiles hs := by
  unfold Header.TwoTiles
  rw [hcarries.upper_eq hf]
  rcases hcarries.clamp with ⟨hnone, hnone'⟩ | ⟨c, c', hsome, hsome', hvalue⟩
  · rw [hnone, hnone']
    exact ⟨fun _ => nofun, fun _ => nofun⟩
  · have hc := hclamps c hsome
    rw [hsome, hsome']
    constructor
    · rintro htwo _ ⟨⟩
      exact le_of_starts hd hdims' hc hvalue (htwo c' rfl)
    · rintro htwo _ ⟨⟩ e he
      rw [hvalue]
      exact htwo c rfl _ fun x hx => (hd x hx).starts e he

end Drawn

theorem top_mono {e e' : Valuation} (hf : h.Fixed) (hclamps : ∀ c, h.clamp = some c → Clamps hs h c)
    (hle : ∀ x ∈ hs, e x.dim ≤ e' x.dim) : h.top e' ≤ h.top e := by
  cases hc : h.clamp with
  | none => simp only [Header.top, hc, hf.upper, le_refl]
  | some c =>
    have hfalls := (hclamps c hc).falls e e' hle
    simp only [Header.top, hc, hf.upper]
    omega

theorem top_settled {e e' : Valuation} (hf : h.Fixed) (hclamps : ∀ c, h.clamp = some c → Clamps hs h c)
    (htwo : h.TwoTiles hs) (hsame : ∀ x ∈ hs, x.extent ≤ 2 → e x.dim = e' x.dim) : h.top e = h.top e' := by
  cases hc : h.clamp with
  | none => simp only [Header.top, hc, hf.upper]
  | some c => simp only [Header.top, hc, hf.upper, (hclamps c hc).settled (htwo c hc) e e' hsame]

end Change

section Exchange

structure Exchanges (φ : Valuation → Valuation) (hs hs' gone kept fresh kept' : List Header) : Prop where
  before : hs.Perm (gone ++ kept)
  after : hs'.Perm (fresh ++ kept')
  dims : (hs.map Header.dim).Nodup
  dims' : (hs'.map Header.dim).Nodup
  drawn : ∀ x ∈ hs, x.Drawn φ hs'
  carries : List.Forall₂ (Header.Carries φ) kept kept'
  unclamped : ∀ x ∈ gone, x.clamp = none
  fixed : ∀ x ∈ fresh, x.Fixed
  clamps : ∀ x ∈ fresh, ∀ c, x.clamp = some c → Clamps hs' x c
  le : ∀ e e', Ends hs' e → charge fresh e ≤ charge gone e'
  eq_iff : ∀ e e', Ends hs' e → (charge fresh e = charge gone e' ↔ ∀ x ∈ fresh, x.TwoTiles hs')

variable {φ : Valuation → Valuation} {hs hs' gone kept fresh kept' : List Header} {instances : Nat}

namespace Exchanges

variable (h : Exchanges φ hs hs' gone kept fresh kept')
include h

theorem mem_before {x : Header} : x ∈ hs ↔ x ∈ gone ∨ x ∈ kept := h.before.mem_iff.trans List.mem_append

theorem mem_after {x : Header} : x ∈ hs' ↔ x ∈ fresh ∨ x ∈ kept' := h.after.mem_iff.trans List.mem_append

theorem charge_before (e : Valuation) : charge hs e = charge gone e * charge kept e := by
  rw [charge_perm h.before, charge_append]

variable (ha : Accounted hs instances)
include ha

theorem fixed_kept : ∀ x ∈ kept, x.Fixed := fun x hx => ha.fixed x (h.mem_before.2 (Or.inr hx))

theorem clamps_kept : ∀ x ∈ kept, ∀ c, x.clamp = some c → Clamps hs x c := fun x hx =>
  ha.clamps x (h.mem_before.2 (Or.inr hx))

theorem charge_after (e : Valuation) : charge hs' e = charge fresh e * charge kept (φ e) := by
  rw [charge_perm h.after, charge_append, charge_carried h.carries (h.fixed_kept ha)]

theorem fixed_after : ∀ x ∈ hs', x.Fixed := by
  intro x' hx'
  rcases h.mem_after.1 hx' with hx' | hx'
  · exact h.fixed x' hx'
  · obtain ⟨x, hx, hcarries⟩ := exists_of_forall₂ h.carries.flip hx'
    exact hcarries.fixed (h.fixed_kept ha x hx)

theorem clamps_after : ∀ x ∈ hs', ∀ c, x.clamp = some c → Clamps hs' x c := by
  intro x' hx' c' hc'
  rcases h.mem_after.1 hx' with hx' | hx'
  · exact h.clamps x' hx' c' hc'
  · obtain ⟨x, hx, hcarries⟩ := exists_of_forall₂ h.carries.flip hx'
    rcases hcarries.clamp with ⟨-, hnone⟩ | ⟨c, c'', hc, hc'', hvalue⟩
    · cases hnone.symm.trans hc'
    · cases hc''.symm.trans hc'
      exact (h.clamps_kept ha x hx c hc).carry h.drawn h.dims' hvalue (hcarries.upper_eq (h.fixed_kept ha x hx))

theorem twoTiles_after : (∀ x ∈ hs', x.TwoTiles hs') ↔ (∀ x ∈ fresh, x.TwoTiles hs') ∧ ∀ x ∈ hs, x.TwoTiles hs := by
  have hsame {x x' : Header} (hx : x ∈ kept) (hcarries : x.Carries φ x') : x'.TwoTiles hs' ↔ x.TwoTiles hs :=
    twoTiles_iff h.drawn h.dims' hcarries (h.fixed_kept ha x hx) (h.clamps_kept ha x hx)
  constructor
  · intro htwo
    refine ⟨fun x hx => htwo x (h.mem_after.2 (Or.inl hx)), fun x hx => ?_⟩
    rcases h.mem_before.1 hx with hx | hx
    · intro c hc
      cases (h.unclamped x hx).symm.trans hc
    · obtain ⟨x', hx', hcarries⟩ := exists_of_forall₂ h.carries hx
      exact (hsame hx hcarries).1 (htwo x' (h.mem_after.2 (Or.inr hx')))
  · rintro ⟨hfresh, htwo⟩ x' hx'
    rcases h.mem_after.1 hx' with hx' | hx'
    · exact hfresh x' hx'
    · obtain ⟨x, hx, hcarries⟩ := exists_of_forall₂ h.carries.flip hx'
      exact (hsame hx hcarries).2 (htwo x (h.mem_before.2 (Or.inr hx)))

section Ends

variable {last e : Valuation} (hlast : Ends hs last) (he : Ends hs' e)
include hlast he

theorem charge_kept_le : charge kept (φ e) ≤ charge kept last := by
  apply charge_mono
  intro x hx
  apply top_mono (h.fixed_kept ha x hx) (h.clamps_kept ha x hx)
  intro y hy
  rw [hlast y hy]
  exact (h.drawn y hy).ends e he

theorem charge_kept_eq (htwo : ∀ x ∈ hs, x.TwoTiles hs) : charge kept (φ e) = charge kept last := by
  apply charge_congr
  intro x hx
  apply top_settled (h.fixed_kept ha x hx) (h.clamps_kept ha x hx) (htwo x (h.mem_before.2 (Or.inr hx)))
  intro y hy hshort
  rw [hlast y hy]
  exact (h.drawn y hy).ends_short e he hshort

theorem charge_le : charge hs' e ≤ instances :=
  calc
    charge hs' e = charge fresh e * charge kept (φ e) := h.charge_after ha e
    _ ≤ charge gone last * charge kept last :=
      mul_le_mul (h.le e last he) (h.charge_kept_le ha hlast he) (charge_nonneg _ _) (charge_nonneg _ _)
    _ = charge hs last := (h.charge_before last).symm
    _ ≤ instances := ha.le last hlast

theorem charge_eq_iff : charge hs' e = instances ↔ ∀ x ∈ hs', x.TwoTiles hs' := by
  rw [h.twoTiles_after ha, h.charge_after ha]
  have hexact := ha.eq_iff last hlast
  rw [h.charge_before] at hexact
  constructor
  · -- Nothing is lost in either factor, since the account was for no more than the instances.
    intro hall
    have hkept : charge fresh e * charge kept (φ e) ≤ charge fresh e * charge kept last :=
      mul_le_mul_of_nonneg_left (h.charge_kept_le ha hlast he) (charge_nonneg _ _)
    have hfresh : charge fresh e * charge kept last ≤ charge gone last * charge kept last :=
      mul_le_mul_of_nonneg_right (h.le e last he) (charge_nonneg _ _)
    have hbound : charge gone last * charge kept last ≤ instances := h.charge_before last ▸ ha.le last hlast
    have hbefore : charge gone last * charge kept last = instances := by linarith
    have hsame : charge fresh e * charge kept last = charge gone last * charge kept last := by linarith
    have hnonzero : charge kept last ≠ 0 := by
      intro hzero
      have hpos : (0 : ℚ) < instances := Nat.cast_pos.2 ha.pos
      rw [hzero, mul_zero] at hbefore
      linarith
    exact ⟨(h.eq_iff e last he).1 (mul_right_cancel₀ hnonzero hsame), hexact.1 hbefore⟩
  · rintro ⟨hfresh, htwo⟩
    rw [h.charge_kept_eq ha hlast he htwo, (h.eq_iff e last he).2 hfresh]
    exact hexact.2 htwo

end Ends

end Exchanges

theorem Accounted.exchange (ha : Accounted hs instances) (h : Exchanges φ hs hs' gone kept fresh kept') :
    Accounted hs' instances := by
  obtain ⟨last, hlast⟩ := exists_valuation h.dims fun x => x.upper.constant - 1
  constructor
  · exact h.fixed_after ha
  · exact h.clamps_after ha
  · exact ha.pos
  · exact fun e he => h.charge_le ha hlast he
  · exact fun e he => h.charge_eq_iff ha hlast he

end Exchange

end LoopNest

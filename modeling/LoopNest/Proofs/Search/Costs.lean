import LoopNest.Proofs.Decimal.Rounding
import LoopNest.Search.Basic
import Mathlib.Order.Compare

namespace LoopNest

open Float.Model Float.Model.UnpackedFloat

section Unpacking

inductive Unpacks (s : Sign) : Nat → UnpackedFloat → Prop where
  | infinity : Unpacks s Decimal.infinity (.infinity s)
  | zero : Unpacks s 0 (.zero s)
  | finite {m e : Nat} (hpos : 0 < m) (hm : m < 2 ^ 53) (he : e < 2046) (hleast : m < 2 ^ 52 → e = 0) :
      Unpacks s (e * 2 ^ 52 + m) (.finite s m (e - 1074) hpos)

theorem Unpacks.of_eq {s : Sign} {bits m e : Nat} {z : Int} {hpos : 0 < m} (hm : m < 2 ^ 53) (he : e < 2046)
    (hleast : m < 2 ^ 52 → e = 0) (hbits : bits = e * 2 ^ 52 + m) (hz : z = e - 1074) :
    Unpacks s bits (.finite s m z hpos) := by
  subst hbits hz
  exact .finite hpos hm he hleast

variable (b : BitVec Format.binary64.numBits)

theorem ofBitVec_unpackSign : Sign.ofBitVec (unpackSign b) = if b.toNat < 2 ^ 63 then .positive else .negative := by
  have hlt : b.toNat < 2 ^ 64 := b.isLt
  apply if_congr _ rfl rfl
  rw [← BitVec.toNat_inj]
  delta unpackSign
  simp [Nat.shiftRight_eq_div_pow]
  omega

theorem toNat_unpackMantissa : (unpackMantissa b).toNat = b.toNat % 2 ^ 52 := by simp [unpackMantissa]

theorem toNat_unpackExponent : (unpackExponent b).toNat = b.toNat / 2 ^ 52 % 2 ^ 11 := by
  simp [unpackExponent, Nat.shiftRight_eq_div_pow]

theorem unpacks_of_not_isNaN (h : (UnpackedFloat.unpack Format.binary64 b).isNaN = false) :
    Unpacks (if b.toNat < 2 ^ 63 then .positive else .negative) (b.toNat % 2 ^ 63)
      (UnpackedFloat.unpack Format.binary64 b) := by
  have hlt : b.toNat < 2 ^ 64 := b.isLt
  have hmantissa := toNat_unpackMantissa b
  have hexponent := toNat_unpackExponent b
  have hones : unpackExponent b = -1#11 ↔ (unpackExponent b).toNat = 2047 := BitVec.toNat_inj.symm
  have hnone : unpackExponent b = 0#11 ↔ (unpackExponent b).toNat = 0 := BitVec.toNat_inj.symm
  have hzero : unpackMantissa b = 0#52 ↔ (unpackMantissa b).toNat = 0 := BitVec.toNat_inj.symm
  have hbias : (Format.binary64.exponentBias : Int) = 1023 := rfl
  delta UnpackedFloat.unpack at h ⊢
  dsimp only at h ⊢
  rw [ofBitVec_unpackSign] at h ⊢
  -- infinities, zeros with the subnormal numbers, and normal numbers, as the exponent tells
  by_cases hspecial : unpackExponent b = -1#11
  · rw [if_pos hspecial] at h ⊢
    by_cases hm : unpackMantissa b = 0#52
    · rw [if_pos hm]
      rw [hones] at hspecial
      rw [hzero] at hm
      have hbits : b.toNat % 2 ^ 63 = Decimal.infinity := by
        unfold Decimal.infinity
        omega
      rw [hbits]
      exact .infinity
    · rw [if_neg hm] at h
      cases h
  · rw [if_neg hspecial]
    by_cases he : unpackExponent b = 0#11
    · rw [if_pos he]
      rw [hnone] at he
      by_cases hm : unpackMantissa b = 0#52
      · rw [dif_pos hm]
        rw [hzero] at hm
        have hbits : b.toNat % 2 ^ 63 = 0 := by omega
        rw [hbits]
        exact .zero
      · rw [dif_neg hm]
        -- a subnormal number has the exponent of the least normal ones
        apply Unpacks.of_eq (e := 0)
        · omega
        · omega
        · exact fun _ => rfl
        · omega
        · omega
    · rw [if_neg he]
      rw [hones] at hspecial
      rw [hnone] at he
      have himplicit : (1#1 ++ unpackMantissa b).toNat = 2 ^ 52 + b.toNat % 2 ^ 52 := by
        rw [BitVec.toNat_append, ← Nat.shiftLeft_add_eq_or_of_lt (unpackMantissa b).isLt, hmantissa]
        rfl
      apply Unpacks.of_eq (e := (unpackExponent b).toNat - 1)
      · omega
      · omega
      · omega
      · omega
      · omega

end Unpacking

section Compare

variable {a b : Int}

theorem lt_eq_compare : Ordering.lt = compare a b ↔ a < b := eq_comm.trans compare_lt_iff_lt

theorem gt_eq_compare : Ordering.gt = compare a b ↔ b < a := eq_comm.trans compare_gt_iff_gt

theorem compare_neg : compare (-a) (-b) = (compare a b).swap := by
  rcases Int.lt_trichotomy a b with hlt | rfl | hgt
  · rw [compare_lt_iff_lt.2 hlt]
    exact compare_gt_iff_gt.2 (Int.neg_lt_neg hlt)
  · rw [compare_eq_iff_eq.2 rfl, compare_eq_iff_eq.2 rfl]
    rfl
  · rw [compare_gt_iff_gt.2 hgt]
    exact compare_lt_iff_lt.2 (Int.neg_lt_neg hgt)

theorem compare_fields {m e m' e' : Nat} (hm : m < 2 ^ 53) (hleast : m < 2 ^ 52 → e = 0) (hm' : m' < 2 ^ 53)
    (hleast' : m' < 2 ^ 52 → e' = 0) : (compare ((e : Int) - 1074) (e' - 1074)).then (compare m m') =
      compare ((e * 2 ^ 52 + m : Nat) : Int) (e' * 2 ^ 52 + m' : Nat) := by
  rcases Nat.lt_trichotomy e e' with hlt | rfl | hgt
  · have hexponents : compare ((e : Int) - 1074) (e' - 1074) = .lt := compare_lt_iff_lt.2 (by omega)
    rw [hexponents]
    exact lt_eq_compare.2 (by omega)
  · have hexponents : compare ((e : Int) - 1074) (e - 1074) = .eq := compare_eq_iff_eq.2 rfl
    rw [hexponents]
    rcases Nat.lt_trichotomy m m' with hlt | rfl | hgt
    · rw [compare_lt_iff_lt.2 hlt]
      exact lt_eq_compare.2 (by omega)
    · rw [compare_eq_iff_eq.2 rfl, compare_eq_iff_eq.2 rfl]
      rfl
    · rw [compare_gt_iff_gt.2 hgt]
      exact gt_eq_compare.2 (by omega)
  · have hexponents : compare ((e : Int) - 1074) (e' - 1074) = .gt := compare_gt_iff_gt.2 (by omega)
    rw [hexponents]
    exact gt_eq_compare.2 (by omega)

theorem compare_of_unpacks {s s' : Sign} {bits bits' : Nat} {u v : UnpackedFloat} (hu : Unpacks s bits u)
    (hv : Unpacks s' bits' v) : u.compare v = some (compare (s.apply bits) (s'.apply bits')) := by
  have hinfinity : Decimal.infinity = 2047 * 2 ^ 52 := rfl
  -- a number in between is settled by the signs unless both are finite and of one sign
  cases hu with
  | infinity | zero =>
    cases hv with
    | infinity | zero => cases s <;> cases s' <;> rfl
    | finite hpos hm he hleast =>
      delta UnpackedFloat.compare
      cases s <;> cases s' <;>
        simp only [Sign.apply, Option.some.injEq, lt_eq_compare, gt_eq_compare] <;> omega
  | finite hpos hm he hleast =>
    cases hv with
    | infinity | zero =>
      delta UnpackedFloat.compare
      cases s <;> cases s' <;>
        simp only [Sign.apply, Option.some.injEq, lt_eq_compare, gt_eq_compare] <;> omega
    | finite hpos' hm' he' hleast' =>
      have hfields := compare_fields hm hleast hm' hleast'
      delta UnpackedFloat.compare
      cases s with
      | negative =>
        cases s' with
        | negative => simp only [Sign.apply, compare_neg, hfields]
        | positive =>
          simp only [Sign.apply, Option.some.injEq, lt_eq_compare]
          omega
      | positive =>
        cases s' with
        | negative =>
          simp only [Sign.apply, Option.some.injEq, gt_eq_compare]
          omega
        | positive => simp only [Sign.apply, hfields]

end Compare

def IsCost (x : Float) : Prop := x.isNaN = false ∧ x.toBits.toNat ≠ 2 ^ 63

namespace IsCost

variable {x y : Float}

def place (x : Float) : Int :=
  (if x.toBits.toNat < 2 ^ 63 then Sign.positive else Sign.negative).apply (x.toBits.toNat % 2 ^ 63 : Nat)

theorem totalOrder_eq (hx : IsCost x) :
    0 ≤ place x ∧ totalOrder x = place x ∨ place x < 0 ∧ totalOrder x = place x - 1 := by
  have hbits := x.toBits.toNat_lt
  have hzero := hx.2
  unfold place totalOrder
  rw [Nat.one_shiftLeft]
  by_cases hsign : x.toBits.toNat < 2 ^ 63
  · left
    rw [if_pos hsign, if_pos hsign, Nat.mod_eq_of_lt hsign]
    exact ⟨Int.natCast_nonneg _, rfl⟩
  · right
    rw [if_neg hsign, if_neg hsign]
    simp only [Sign.apply]
    omega

theorem compare_eq (hx : IsCost x) (hy : IsCost y) :
    x.toModel.unpack.compare y.toModel.unpack = some (compare (totalOrder x) (totalOrder y)) := by
  have hplaces : x.toModel.unpack.compare y.toModel.unpack = some (compare (place x) (place y)) :=
    compare_of_unpacks (unpacks_of_not_isNaN _ hx.1) (unpacks_of_not_isNaN _ hy.1)
  have hx' := totalOrder_eq hx
  have hy' := totalOrder_eq hy
  rw [hplaces]
  apply congrArg some
  rcases Int.lt_trichotomy (place x) (place y) with hlt | heq | hgt
  · rw [compare_lt_iff_lt.2 hlt]
    exact lt_eq_compare.2 (by omega)
  · rw [compare_eq_iff_eq.2 heq]
    exact (compare_eq_iff_eq.2 (by omega)).symm
  · rw [compare_gt_iff_gt.2 hgt]
    exact gt_eq_compare.2 (by omega)

theorem lt_iff (hx : IsCost x) (hy : IsCost y) : x < y ↔ totalOrder x < totalOrder y := by
  have hlt : x < y ↔ x.toModel.unpack.compare y.toModel.unpack = some .lt := by
    change (decide (x.toModel < y.toModel) = true) ↔ _
    rw [decide_eq_true_iff]
    exact beq_iff_eq
  rw [hlt, compare_eq hx hy, Option.some.injEq]
  exact compare_lt_iff_lt

theorem le_iff (hx : IsCost x) (hy : IsCost y) : x ≤ y ↔ totalOrder x ≤ totalOrder y := by
  have hle : x ≤ y ↔ (x.toModel.unpack.compare y.toModel.unpack).any Ordering.isLE = true := by
    change (decide (x.toModel ≤ y.toModel) = true) ↔ _
    rw [decide_eq_true_iff]
    rfl
  rw [hle, compare_eq hx hy]
  exact Std.isLE_compare

end IsCost

end LoopNest

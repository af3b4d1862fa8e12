import LoopNest.Arithmetic
import LoopNest.Decimal.Shortest
import Mathlib.Algebra.Order.Field.Rat
import Mathlib.Tactic.Linarith
import Mathlib.Tactic.NormNum
import Mathlib.Tactic.Ring

/-!
Decimal numbers as doubles. A number rounds to the double that is nearest to it, and half-way to the one with even
bits. The bits of non-negative doubles count them in their order, and each has the middles of the gaps to its
neighbours around it.
-/

namespace LoopNest.Decimal

def Binary.toRat (b : Binary) : ℚ := b.mantissa * 2 ^ b.exponent

def infinity : Nat := 2047 * 2 ^ 52

def magnitude (bits : Nat) : ℚ := (Binary.ofBits bits).toRat

/-- The nearest magnitude, where half-way goes to the even one. -/
def RoundsTo (x : ℚ) (bits : Nat) : Prop :=
  bits ≤ infinity ∧ ∀ other ≤ infinity, other ≠ bits →
    |x - magnitude bits| < |x - magnitude other| ∨
      |x - magnitude bits| = |x - magnitude other| ∧ bits % 2 = 0

section Fields

theorem ofBits_subnormal {f : Nat} (hf : f < 2 ^ 52) : Binary.ofBits f = ⟨f, -1074, false⟩ := by
  have hbiased : (f >>> 52) % (1 <<< 11) = 0 := by
    rw [Nat.shiftRight_eq_div_pow, Nat.div_eq_of_lt hf, Nat.zero_mod]
  have hfraction : f % (1 <<< 52) = f := Nat.mod_eq_of_lt hf
  simp only [Binary.ofBits, hbiased, hfraction, if_true]

theorem ofBits_normal {f e : Nat} (hf : f < 2 ^ 52) (he : e + 1 < 2 ^ 11) :
    Binary.ofBits ((e + 1) * 2 ^ 52 + f) = ⟨2 ^ 52 + f, (e : Int) - 1074, f == 0 && decide (0 < e)⟩ := by
  have hbiased : (((e + 1) * 2 ^ 52 + f) >>> 52) % (1 <<< 11) = e + 1 := by
    rw [Nat.shiftRight_eq_div_pow, Nat.one_shiftLeft]
    omega
  have hfraction : ((e + 1) * 2 ^ 52 + f) % (1 <<< 52) = f := by
    rw [Nat.one_shiftLeft]
    omega
  have hexponent : ((e + 1 : Nat) : Int) - 1075 = e - 1074 := by omega
  have hhalved : decide (e + 1 > 1) = decide (0 < e) := decide_eq_decide.2 (by omega)
  simp only [Binary.ofBits, hbiased, hfraction, Nat.succ_ne_zero, if_false, hexponent, hhalved]
  rw [Nat.one_shiftLeft]

theorem exists_fields {bits : Nat} (h : bits < 2 ^ 63) :
    bits < 2 ^ 52 ∨ ∃ e f, f < 2 ^ 52 ∧ e + 1 < 2 ^ 11 ∧ bits = (e + 1) * 2 ^ 52 + f := by
  rcases Nat.lt_or_ge bits (2 ^ 52) with hsmall | hlarge
  · exact Or.inl hsmall
  · exact Or.inr ⟨bits / 2 ^ 52 - 1, bits % 2 ^ 52, by omega, by omega, by omega⟩

theorem magnitude_subnormal {f : Nat} (hf : f < 2 ^ 52) : magnitude f = f * 2 ^ (-1074 : Int) := by
  rw [magnitude, ofBits_subnormal hf, Binary.toRat]

theorem magnitude_normal {f e : Nat} (hf : f < 2 ^ 52) (he : e + 1 < 2 ^ 11) :
    magnitude ((e + 1) * 2 ^ 52 + f) = (2 ^ 52 + f) * 2 ^ ((e : Int) - 1074) := by
  rw [magnitude, ofBits_normal hf he, Binary.toRat]
  norm_num

structure Binary.Normal (b : Binary) : Prop where
  mantissa_lt : b.mantissa < 2 ^ 53
  mantissa_halved : b.halved = true → b.mantissa = 2 ^ 52
  exponent_ge : -1074 ≤ b.exponent

theorem normal_ofBits {bits : Nat} (h : bits < 2 ^ 63) : (Binary.ofBits bits).Normal := by
  rcases exists_fields h with hf | ⟨e, f, hf, he, rfl⟩
  · rw [ofBits_subnormal hf]
    exact ⟨by dsimp only; omega, by simp, by simp⟩
  · rw [ofBits_normal hf he]
    refine ⟨by dsimp only; omega, fun hhalved => ?_, by dsimp only; omega⟩
    simp only [Bool.and_eq_true, beq_iff_eq] at hhalved
    simp only [hhalved.1, Nat.add_zero]

theorem mantissa_mod_two {bits : Nat} (h : bits < 2 ^ 63) : (Binary.ofBits bits).mantissa % 2 = bits % 2 := by
  rcases exists_fields h with hf | ⟨e, f, hf, he, rfl⟩
  · rw [ofBits_subnormal hf]
  · rw [ofBits_normal hf he]
    dsimp only
    omega

theorem mantissa_pos {bits : Nat} (h : bits < 2 ^ 63) (hpos : 0 < bits) : 0 < (Binary.ofBits bits).mantissa := by
  rcases exists_fields h with hf | ⟨e, f, hf, he, rfl⟩
  · rw [ofBits_subnormal hf]
    exact hpos
  · rw [ofBits_normal hf he]
    dsimp only
    omega

end Fields

section Gaps

def gap (bits : Nat) : ℚ := 2 ^ (Binary.ofBits bits).exponent

theorem gap_pos (bits : Nat) : 0 < gap bits := zpow_pos (by norm_num) _

theorem gap_subnormal {f : Nat} (hf : f < 2 ^ 52) : gap f = 2 ^ (-1074 : Int) := by
  rw [gap, ofBits_subnormal hf]

theorem gap_normal {f e : Nat} (hf : f < 2 ^ 52) (he : e + 1 < 2 ^ 11) :
    gap ((e + 1) * 2 ^ 52 + f) = 2 ^ ((e : Int) - 1074) := by
  rw [gap, ofBits_normal hf he]

theorem magnitude_succ {bits : Nat} (h : bits < infinity) : magnitude (bits + 1) = magnitude bits + gap bits := by
  have hbits : bits < 2047 * 2 ^ 52 := h
  rcases exists_fields (by omega : bits < 2 ^ 63) with hf | ⟨e, f, hf, he, rfl⟩
  · rw [gap_subnormal hf, magnitude_subnormal hf]
    rcases Nat.lt_or_ge (bits + 1) (2 ^ 52) with hnext | hnext
    · rw [magnitude_subnormal hnext, Nat.cast_succ, add_one_mul]
    · -- behind the largest subnormal number comes the least normal one
      have hlast : bits + 1 = (0 + 1) * 2 ^ 52 + 0 := by omega
      have hcast : (bits : ℚ) = 2 ^ 52 - 1 := by
        rw [show bits = 2 ^ 52 - 1 by omega]
        norm_num
      have hexponent : ((0 : Nat) : Int) - 1074 = -1074 := rfl
      rw [hlast, magnitude_normal (by norm_num) (by norm_num), hcast, hexponent]
      generalize (2 : ℚ) ^ (-1074 : Int) = smallest
      push_cast
      ring
  · rw [gap_normal hf he, magnitude_normal hf he]
    rcases Nat.lt_or_ge (f + 1) (2 ^ 52) with hnext | hnext
    · rw [Nat.add_assoc, magnitude_normal hnext he]
      push_cast
      ring
    · -- a mantissa that is full is carried into the exponent
      have hlast : (e + 1) * 2 ^ 52 + f + 1 = (e + 1 + 1) * 2 ^ 52 + 0 := by omega
      have hcast : (f : ℚ) = 2 ^ 52 - 1 := by
        rw [show f = 2 ^ 52 - 1 by omega]
        norm_num
      have hexponent : ((e + 1 : Nat) : Int) - 1074 = (e : Int) - 1074 + 1 := by omega
      rw [hlast, magnitude_normal (by norm_num) (by omega), hcast, hexponent, zpow_add_one₀ (by norm_num)]
      push_cast
      ring

theorem gap_pred {n : Nat} (h : n + 1 < 2 ^ 63) :
    gap n = (if (Binary.ofBits (n + 1)).halved then 1 else 2 : Nat) * gap (n + 1) / 2 := by
  have hsame (x : ℚ) : x = ((2 : Nat) : ℚ) * x / 2 := by
    push_cast
    ring
  rcases exists_fields h with hf | ⟨e, f, hf, he, hn⟩
  · rw [gap_subnormal hf, gap_subnormal (Nat.lt_of_succ_lt hf), ofBits_subnormal hf, if_neg Bool.false_ne_true]
    exact hsame _
  · rw [hn, gap_normal hf he, ofBits_normal hf he]
    cases f with
    | succ f =>
      obtain rfl : n = (e + 1) * 2 ^ 52 + f := by omega
      rw [gap_normal (Nat.lt_of_succ_lt hf) he, if_neg (by simp)]
      exact hsame _
    | zero =>
      cases e with
      | zero =>
        rw [gap_subnormal (by omega), if_neg (by simp)]
        exact hsame _
      | succ e =>
        obtain rfl : n = (e + 1) * 2 ^ 52 + (2 ^ 52 - 1) := by omega
        -- below a power of two the exponent is one less
        have hexponent : ((e + 1 : Nat) : Int) - 1074 = (e : Int) - 1074 + 1 := by omega
        rw [gap_normal (by omega) (by omega), if_pos (by simp), hexponent, zpow_add_one₀ (by norm_num)]
        push_cast
        ring

theorem magnitude_lt {m n : Nat} (hmn : m < n) (hn : n ≤ infinity) : magnitude m < magnitude n := by
  induction n, hmn using Nat.le_induction with
  | base =>
    rw [magnitude_succ hn]
    linarith [gap_pos m]
  | succ n _ ih =>
    rw [magnitude_succ hn]
    linarith [gap_pos n, ih (Nat.le_of_succ_le hn)]

theorem magnitude_le {m n : Nat} (hmn : m ≤ n) (hn : n ≤ infinity) : magnitude m ≤ magnitude n := by
  rcases Nat.eq_or_lt_of_le hmn with rfl | hlt
  · exact le_refl _
  · exact (magnitude_lt hlt hn).le

structure Near (x : ℚ) (bits : Nat) : Prop where
  below : ∀ n, n + 1 = bits → magnitude bits - gap n / 2 ≤ x
  above : x ≤ magnitude bits + gap bits / 2
  even : bits % 2 = 1 → x < magnitude bits + gap bits / 2 ∧ ∀ n, n + 1 = bits → magnitude bits - gap n / 2 < x

theorem Near.roundsTo {x : ℚ} {bits : Nat} (hbits : bits < infinity) (h : Near x bits) : RoundsTo x bits := by
  refine ⟨hbits.le, fun other hother hne => ?_⟩
  have hclose : |x - magnitude bits| ≤ |x - magnitude other| ∧
      (bits % 2 = 1 → |x - magnitude bits| < |x - magnitude other|) := by
    rcases Nat.lt_or_gt_of_ne hne with hlt | hgt
    · -- what lies below is no nearer than the predecessor
      obtain ⟨n, rfl⟩ : ∃ n, n + 1 = bits := ⟨bits - 1, by omega⟩
      have hneighbour := magnitude_le (Nat.le_of_lt_succ hlt) (Nat.le_of_succ_le hbits.le)
      have hsucc := magnitude_succ (Nat.lt_of_succ_lt hbits)
      have hbelow := h.below n rfl
      have hpos := gap_pos n
      have hfar : x - magnitude other ≤ |x - magnitude other| := le_abs_self _
      refine ⟨abs_le.2 ⟨by linarith, by linarith⟩, fun hodd => abs_lt.2 ⟨?_, by linarith⟩⟩
      linarith [(h.even hodd).2 n rfl]
    · -- and what lies above no nearer than the successor
      have hneighbour := magnitude_le hgt hother
      have hsucc := magnitude_succ hbits
      have habove := h.above
      have hpos := gap_pos bits
      have hfar : magnitude other - x ≤ |x - magnitude other| := by
        rw [abs_sub_comm]
        exact le_abs_self _
      refine ⟨abs_le.2 ⟨by linarith, by linarith⟩, fun hodd => abs_lt.2 ⟨by linarith, ?_⟩⟩
      linarith [(h.even hodd).1]
  rcases hclose.1.lt_or_eq with hlt | heq
  · exact Or.inl hlt
  · refine Or.inr ⟨heq, (Nat.mod_two_eq_zero_or_one bits).resolve_right fun hodd => ?_⟩
    exact absurd heq (hclose.2 hodd).ne

theorem RoundsTo.unique {x : ℚ} {m n : Nat} (hm : RoundsTo x m) (hn : RoundsTo x n) : m = n := by
  wlog hmn : m < n generalizing m n
  · rcases Nat.lt_trichotomy m n with hlt | heq | hgt
    · exact absurd hlt hmn
    · exact heq
    · exact (this hn hm hgt).symm
  exfalso
  rcases hm.2 n hn.1 hmn.ne' with hfirst | ⟨heq, hmeven⟩
  · rcases hn.2 m hm.1 hmn.ne with hsecond | ⟨hsecond, -⟩
    · exact absurd hfirst hsecond.not_gt
    · exact absurd hsecond hfirst.ne'
  · rcases hn.2 m hm.1 hmn.ne with hsecond | ⟨-, hneven⟩
    · exact absurd heq hsecond.ne'
    · have hlow := magnitude_lt (Nat.lt_succ_self m) (Nat.le_trans hmn hn.1)
      have hhigh := magnitude_lt (by omega : m + 1 < n) hn.1
      have hmiddle : |x - magnitude m| ≤ |x - magnitude (m + 1)| := by
        rcases hm.2 (m + 1) (Nat.le_trans hmn hn.1) (Nat.succ_ne_self m) with h | h
        · exact h.le
        · exact h.1.le
      rcases abs_cases (x - magnitude m) with ⟨h1, h1'⟩ | ⟨h1, h1'⟩ <;>
        rcases abs_cases (x - magnitude n) with ⟨h2, h2'⟩ | ⟨h2, h2'⟩ <;>
        rcases abs_cases (x - magnitude (m + 1)) with ⟨h3, h3'⟩ | ⟨h3, h3'⟩ <;> linarith

end Gaps

end LoopNest.Decimal

namespace LoopNest

def Arithmetic.fractions : Arithmetic Rat where
  ofConst x :=
    let bits := x.toBits.toNat
    if bits < 1 <<< 63 then Decimal.magnitude bits else -Decimal.magnitude (bits - 1 <<< 63)
  ofInt n := n
  binary
    | .add, x, y => x + y
    | .sub, x, y => x - y
    | .mul, x, y => x * y
    | .div, x, y => x / y
    | .min, x, y => min x y
    | .max, x, y => max x y
  neg x := -x
  call _ x := x
  round _ x := x
  zero := 0

theorem Arithmetic.ofConst_fractions : Arithmetic.fractions.ofConst 0.0 = 0 ∧ Arithmetic.fractions.ofConst 1.0 = 1 ∧
    Arithmetic.fractions.ofConst 3.0 = 3 := by
  decide +kernel

theorem Arithmetic.ofConst_negative {x y : Float} (h : x.toBits.toNat = 2 ^ 63 + y.toBits.toNat) :
    fractions.ofConst x = fractions.neg (fractions.ofConst y) := by
  have hlt := x.toBits.toNat_lt
  have hx : ¬ x.toBits.toNat < 1 <<< 63 := by
    rw [h, Nat.one_shiftLeft]
    omega
  have hy : y.toBits.toNat < 1 <<< 63 := by
    rw [Nat.one_shiftLeft]
    omega
  have hrest : x.toBits.toNat - 1 <<< 63 = y.toBits.toNat := by
    rw [h, Nat.one_shiftLeft, Nat.add_sub_cancel_left]
  simp only [fractions, if_neg hx, if_pos hy, hrest]

end LoopNest

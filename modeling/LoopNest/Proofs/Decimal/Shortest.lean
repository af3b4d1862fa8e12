import LoopNest.Proofs.Decimal.Rounding
import Mathlib.Tactic.Positivity

namespace LoopNest.Decimal

def Scaled.toRat (s : Scaled) : ℚ := s.significand * 10 ^ s.exponent

section Intervals

variable {i : Interval} {k : Int} {n : Nat}

def Interval.Contains (i : Interval) (x : ℚ) : Prop :=
  if i.closed then i.low ≤ x * i.unit ∧ x * i.unit ≤ i.high else i.low < x * i.unit ∧ x * i.unit < i.high

theorem pow_toNat {b : ℚ} (hb : b ≠ 0) (k : Int) : b ^ k.toNat = b ^ k * b ^ (-k).toNat := by
  have hk : (k.toNat : Int) = k + (-k).toNat := by omega
  rw [← zpow_natCast, hk, zpow_add₀ hb, zpow_natCast]

theorem holds_onGrid : (i.onGrid k).holds n = true ↔ i.Contains (n * 10 ^ k) := by
  have hscale : ((n * (i.unit * 10 ^ k.toNat) : Nat) : ℚ) = n * 10 ^ k * i.unit * ((10 ^ (-k).toNat : Nat) : ℚ) := by
    push_cast
    rw [pow_toNat (by norm_num) k]
    ring
  have hpos : (0 : ℚ) < ((10 ^ (-k).toNat : Nat) : ℚ) := by positivity
  have hlow : i.low * 10 ^ (-k).toNat ≤ n * (i.unit * 10 ^ k.toNat) ↔ (i.low : ℚ) ≤ n * 10 ^ k * i.unit := by
    rw [← @Nat.cast_le ℚ, hscale, Nat.cast_mul, mul_le_mul_iff_left₀ hpos]
  have hhigh : n * (i.unit * 10 ^ k.toNat) ≤ i.high * 10 ^ (-k).toNat ↔ n * 10 ^ k * i.unit ≤ (i.high : ℚ) := by
    rw [← @Nat.cast_le ℚ, hscale, Nat.cast_mul, mul_le_mul_iff_left₀ hpos]
  have hlow' : i.low * 10 ^ (-k).toNat < n * (i.unit * 10 ^ k.toNat) ↔ (i.low : ℚ) < n * 10 ^ k * i.unit := by
    rw [← @Nat.cast_lt ℚ, hscale, Nat.cast_mul, mul_lt_mul_iff_left₀ hpos]
  have hhigh' : n * (i.unit * 10 ^ k.toNat) < i.high * 10 ^ (-k).toNat ↔ n * 10 ^ k * i.unit < (i.high : ℚ) := by
    rw [← @Nat.cast_lt ℚ, hscale, Nat.cast_mul, mul_lt_mul_iff_left₀ hpos]
  simp only [Interval.holds, Interval.onGrid, Interval.Contains, Nat.pow_eq]
  by_cases hclosed : i.closed = true
  · simp only [if_pos hclosed, Bool.and_eq_true, decide_eq_true_eq, hlow, hhigh]
  · simp only [if_neg hclosed, Bool.and_eq_true, decide_eq_true_eq, hlow', hhigh']

theorem holds_of_nearest? (h : i.nearest? = some n) : i.holds n = true := by
  unfold Interval.nearest? at h
  dsimp only at h
  split at h
  · cases h
  · next hbelow _ =>
    cases h
    exact hbelow
  · next _ habove =>
    cases h
    exact habove
  · next hbelow habove =>
    cases h
    split_ifs
    · exact hbelow
    · exact habove

theorem exists_nearest? (hunit : 0 < i.unit) (hlow : i.low < i.value) (hhigh : i.value < i.high)
    (hwide : i.unit < i.high - i.low) : ∃ n, i.nearest? = some n := by
  have hdiv := Nat.div_add_mod' i.value i.unit
  have hmod := Nat.mod_lt i.value hunit
  have hnext : (i.value / i.unit + 1) * i.unit = i.value / i.unit * i.unit + i.unit := Nat.succ_mul _ _
  have hsome : i.holds (i.value / i.unit) = true ∨ i.holds (i.value / i.unit + 1) = true := by
    simp only [Interval.holds, hnext]
    split_ifs <;> simp only [Bool.and_eq_true, decide_eq_true_eq] <;> omega
  unfold Interval.nearest?
  dsimp only
  split
  · next hbelow habove => simp [hbelow, habove] at hsome
  all_goals exact ⟨_, rfl⟩

theorem searchGrid_contains {tries : Nat} {k : Int} (h : ∃ n, (i.onGrid (k - tries)).nearest? = some n) :
    i.Contains (searchGrid i (tries + 1) k).toRat := by
  induction tries generalizing k with
  | zero =>
    obtain ⟨n, hn⟩ := h
    rw [Nat.cast_zero, sub_zero] at hn
    rw [searchGrid, hn]
    exact holds_onGrid.1 (holds_of_nearest? hn)
  | succ tries ih =>
    rw [searchGrid]
    split
    · next n hn => exact holds_onGrid.1 (holds_of_nearest? hn)
    · have hgrid : k - 1 - (tries : Int) = k - ((tries + 1 : Nat) : Int) := by omega
      exact ih (hgrid ▸ h)

theorem toRat_dropZeros (tries : Nat) (s : Scaled) : (dropZeros tries s).toRat = s.toRat := by
  induction tries generalizing s with
  | zero => rfl
  | succ tries ih =>
    rw [dropZeros]
    split_ifs with hs
    · rw [ih]
      have hten : (s.significand : ℚ) = (s.significand / 10 : Nat) * 10 := by
        exact_mod_cast (Nat.div_mul_cancel (Nat.dvd_of_mod_eq_zero hs)).symm
      rw [Scaled.toRat, Scaled.toRat, zpow_add_one₀ (by norm_num), hten]
      ring
    · rfl

end Intervals

section Magnitude

theorem leadingZeros_spec {value unit tries : Nat} (h : unit ≤ value * 10 ^ tries) :
    unit ≤ value * 10 ^ leadingZeros value unit tries := by
  induction tries generalizing value with
  | zero => exact h
  | succ tries ih =>
    rw [leadingZeros]
    split_ifs with hle
    · simpa using hle
    · rw [Nat.pow_succ', ← Nat.mul_assoc] at h ⊢
      exact ih h

theorem pow_magnitude_le {i : Interval} (hunit : 0 < i.unit) (hvalue : i.unit ≤ i.value * 10 ^ 400) :
    10 ^ i.magnitude * (i.unit : ℚ) ≤ i.value := by
  rw [Interval.magnitude]
  split_ifs with hle
  · generalize hlength : (Nat.toDigits 10 (i.value / i.unit)).length = length
    have hlead : 10 ^ (length - 1) ≤ i.value / i.unit := by
      rcases Nat.lt_or_ge 1 length with hlong | hshort
      · have hshorter : (Nat.toDigits 10 (i.value / i.unit)).length ≤ length - 1 ↔
            i.value / i.unit < 10 ^ (length - 1) := Nat.length_toDigits_le_iff (by decide) (by omega)
        omega
      · have hzero : length - 1 = 0 := by omega
        rw [hzero, Nat.pow_zero]
        exact Nat.div_pos hle hunit
    have hexponent : (length : Int) - 1 = (length - 1 : Nat) := by
      have hpos : 0 < (Nat.toDigits 10 (i.value / i.unit)).length := Nat.length_toDigits_pos
      omega
    rw [hexponent, zpow_natCast]
    exact_mod_cast (Nat.le_div_iff_mul_le hunit).1 hlead
  · have hzeros := leadingZeros_spec hvalue
    rw [zpow_neg, zpow_natCast, inv_mul_le_iff₀ (by positivity), mul_comm]
    exact_mod_cast hzeros

end Magnitude

section Shortest

variable {b : Binary}

theorem Binary.unit_pos (b : Binary) : 0 < b.interval.unit := by
  simp only [Binary.interval, Nat.one_shiftLeft]
  exact Nat.two_pow_pos _

theorem Binary.value_lt (h : b.Normal) (hpos : 0 < b.mantissa) :
    b.interval.value < 10 ^ 16 * (b.interval.high - b.interval.low) := by
  have hup : 0 < 1 <<< (b.exponent - 2).toNat := by
    rw [Nat.one_shiftLeft]
    exact Nat.two_pow_pos _
  have hlt := h.mantissa_lt
  have hwide : 4 * b.mantissa < 10 ^ 16 * (4 * b.mantissa + 2 - (4 * b.mantissa - if b.halved then 1 else 2)) := by
    split_ifs with hhalved
    · have hm := h.mantissa_halved hhalved
      omega
    · omega
  simp only [Binary.interval, ← Nat.sub_mul, ← Nat.mul_assoc]
  exact Nat.mul_lt_mul_of_pos_right hwide hup

theorem Binary.low_lt (hpos : 0 < b.mantissa) : b.interval.low < b.interval.value := by
  simp only [Binary.interval, Nat.one_shiftLeft]
  refine Nat.mul_lt_mul_of_pos_right ?_ (Nat.two_pow_pos _)
  split_ifs <;> omega

theorem Binary.lt_high (b : Binary) : b.interval.value < b.interval.high := by
  simp only [Binary.interval, Nat.one_shiftLeft]
  exact Nat.mul_lt_mul_of_pos_right (by omega) (Nat.two_pow_pos _)

theorem Binary.unit_le (h : b.Normal) (hpos : 0 < b.mantissa) : b.interval.unit ≤ b.interval.value * 10 ^ 400 := by
  have hexponent := h.exponent_ge
  have hpow {m n : Nat} (hmn : m ≤ 3 * n) : 2 ^ m ≤ 10 ^ n := by
    calc 2 ^ m ≤ 2 ^ (3 * n) := Nat.pow_le_pow_right (by decide) hmn
      _ = 8 ^ n := Nat.pow_mul 2 3 n
      _ ≤ 10 ^ n := Nat.pow_le_pow_left (by decide) n
  calc b.interval.unit = 2 ^ (2 - b.exponent).toNat := by simp only [Binary.interval, Nat.one_shiftLeft]
    _ ≤ 10 ^ 400 := hpow (by omega)
    _ ≤ b.interval.value * 10 ^ 400 := Nat.le_mul_of_pos_left _ (Nat.zero_lt_of_lt (Binary.low_lt hpos))

theorem interval_contains_shortest (h : b.Normal) (hpos : 0 < b.mantissa) :
    b.interval.Contains (shortest b).toRat := by
  have hten : (0 : ℚ) < 10 ^ (-(b.interval.magnitude - (16 : Nat))).toNat := by positivity
  have hup : 0 < 10 ^ (-(b.interval.magnitude - (16 : Nat))).toNat := Nat.pow_pos (by decide)
  -- on the finest grid one step is shorter than the interval
  have hwide : b.interval.unit * 10 ^ (b.interval.magnitude - (16 : Nat)).toNat <
      (b.interval.high - b.interval.low) * 10 ^ (-(b.interval.magnitude - (16 : Nat))).toNat := by
    have hlead := pow_magnitude_le (Binary.unit_pos b) (Binary.unit_le h hpos)
    have hvalue : (b.interval.value : ℚ) < 10 ^ 16 * (b.interval.high - b.interval.low : Nat) := by
      exact_mod_cast Binary.value_lt h hpos
    have hgrid : (b.interval.unit : ℚ) * 10 ^ (b.interval.magnitude - (16 : Nat)) <
        (b.interval.high - b.interval.low : Nat) := by
      rw [zpow_sub₀ (by norm_num), zpow_natCast, mul_div_assoc', div_lt_iff₀ (by norm_num)]
      linarith
    rw [← @Nat.cast_lt ℚ]
    push_cast
    rw [pow_toNat (by norm_num) (b.interval.magnitude - 16), ← mul_assoc]
    exact mul_lt_mul_of_pos_right (by exact_mod_cast hgrid) (by exact_mod_cast hten)
  rw [shortest, if_neg (by omega)]
  dsimp only
  rw [toRat_dropZeros]
  apply searchGrid_contains
  refine exists_nearest? ?_ ?_ ?_ ?_
  · exact Nat.mul_pos (Binary.unit_pos b) (Nat.pow_pos (by decide))
  · exact Nat.mul_lt_mul_of_pos_right (Binary.low_lt hpos) hup
  · exact Nat.mul_lt_mul_of_pos_right (Binary.lt_high b) hup
  · simp only [Interval.onGrid, Nat.pow_eq, ← Nat.sub_mul]
    exact hwide

theorem near_of_contains {bits : Nat} (hpos : 0 < bits) (h : bits < 2 ^ 63) {x : ℚ}
    (hx : (Binary.ofBits bits).interval.Contains x) : Near x bits := by
  generalize hb : Binary.ofBits bits = b at hx
  have hm : 0 < b.mantissa := hb ▸ mantissa_pos h hpos
  have hunit : (0 : ℚ) < b.interval.unit := by exact_mod_cast Binary.unit_pos b
  -- the numerators of the interval count quarters of the gap
  have hup : ((1 <<< (b.exponent - 2).toNat : Nat) : ℚ) = gap bits / 4 * b.interval.unit := by
    have hneg : -(b.exponent - 2) = 2 - b.exponent := by omega
    simp only [Binary.interval, Nat.one_shiftLeft, gap, hb]
    push_cast
    rw [pow_toNat (by norm_num) (b.exponent - 2), hneg, zpow_sub₀ (by norm_num)]
    norm_num
  have hmagnitude : magnitude bits = b.mantissa * gap bits := by rw [magnitude, gap, hb, Binary.toRat]
  have hhigh : (b.interval.high : ℚ) = (magnitude bits + gap bits / 2) * b.interval.unit := by
    simp only [Binary.interval] at hup ⊢
    push_cast at hup ⊢
    rw [hup, hmagnitude]
    ring
  have hlow : ∀ n, n + 1 = bits → (b.interval.low : ℚ) = (magnitude bits - gap n / 2) * b.interval.unit := by
    rintro n rfl
    have hdown : (if b.halved then 1 else 2) ≤ 4 * b.mantissa := by split_ifs <;> omega
    rw [gap_pred h, hb, hmagnitude]
    simp only [Binary.interval] at hup ⊢
    rw [Nat.cast_mul, Nat.cast_sub hdown, hup]
    push_cast
    ring
  have hclosed : b.interval.closed = true ↔ bits % 2 = 0 := by
    rw [← mantissa_mod_two h, hb]
    exact decide_eq_true_iff
  rw [Interval.Contains] at hx
  split_ifs at hx with hc
  · refine ⟨fun n hn => ?_, ?_, fun hodd => ?_⟩
    · exact le_of_mul_le_mul_right ((hlow n hn).symm.trans_le hx.1) hunit
    · exact le_of_mul_le_mul_right (hx.2.trans_eq hhigh) hunit
    · rw [hclosed.1 hc] at hodd
      exact absurd hodd (by decide)
  · have habove : x < magnitude bits + gap bits / 2 := lt_of_mul_lt_mul_right (hx.2.trans_eq hhigh) hunit.le
    have hbelow (n : Nat) (hn : n + 1 = bits) : magnitude bits - gap n / 2 < x :=
      lt_of_mul_lt_mul_right ((hlow n hn).symm.trans_lt hx.1) hunit.le
    exact ⟨fun n hn => (hbelow n hn).le, habove.le, fun _ => ⟨habove, hbelow⟩⟩

theorem shortest_roundsTo {bits : Nat} (h : bits < infinity) : RoundsTo (shortest (.ofBits bits)).toRat bits := by
  have hbits : bits < 2 ^ 63 := Nat.lt_trans h (by norm_num [infinity])
  rcases Nat.eq_zero_or_pos bits with rfl | hpos
  · have hzero : (shortest (.ofBits 0)).toRat = 0 := by
      rw [ofBits_subnormal (by norm_num), shortest, if_pos rfl, Scaled.toRat]
      norm_num
    have hmagnitude : magnitude 0 = 0 := by
      rw [magnitude_subnormal (by norm_num), Nat.cast_zero, zero_mul]
    have hgap := gap_pos 0
    refine Near.roundsTo h ⟨fun n hn => absurd hn (Nat.succ_ne_zero n), ?_, fun hodd => absurd hodd (by decide)⟩
    rw [hzero, hmagnitude]
    linarith
  · exact (near_of_contains hpos hbits
      (interval_contains_shortest (normal_ofBits hbits) (mantissa_pos hbits hpos))).roundsTo h

end Shortest

end LoopNest.Decimal

import LoopNest.Decimal.Layout
import LoopNest.Proofs.Affine.Text
import LoopNest.Decimal.Integer
import LoopNest.Proofs.Decimal.Shortest
import LoopNest.Proofs.Lists

namespace LoopNest.Decimal

def isExponentMark (c : Char) : Bool := c == 'e' || c == 'E'

def exponent? : List Char → Option Int
  | [] => some 0
  | _ :: '+' :: ds => (unsigned? ds).map Int.ofNat
  | _ :: '-' :: ds => (unsigned? ds).map fun n => -Int.ofNat n
  | _ :: ds => (unsigned? ds).map Int.ofNat

def floating? (cs : List Char) : Option ℚ :=
  let mantissa := cs.takeWhile (!isExponentMark ·)
  let marked := cs.dropWhile (!isExponentMark ·)
  let whole := mantissa.takeWhile (· != '.')
  let pointed := mantissa.dropWhile (· != '.')
  if pointed.isEmpty && marked.isEmpty then none
  else do
    let n ← unsigned? (whole ++ pointed.drop 1)
    let e ← exponent? marked
    return n * 10 ^ (e - (pointed.drop 1).length)

structure Numeral where
  whole : List Char
  fraction : List Char
  exponent : Option Int
  whole_ne : whole ≠ []
  digits : ∀ c ∈ whole ++ fraction, isDigit c
  floating : fraction ≠ [] ∨ exponent ≠ none

namespace Numeral

def pointed (n : Numeral) : List Char := if n.fraction.isEmpty then [] else '.' :: n.fraction

def marked (n : Numeral) : List Char :=
  match n.exponent with
  | none => []
  | some e => 'e' :: (toString e).toList

def text (n : Numeral) : List Char := n.whole ++ n.pointed ++ n.marked

def value (n : Numeral) : ℚ := valueOf (n.whole ++ n.fraction) * 10 ^ (n.exponent.getD 0 - n.fraction.length)

end Numeral

section Reading

variable (n : Numeral)

theorem unsigned?_of_digits {ds : List Char} (hne : ds ≠ []) (h : ∀ c ∈ ds, isDigit c) :
    unsigned? ds = some (valueOf ds) := by
  have hall : ds.all isDigit = true := List.all_eq_true.2 h
  rw [unsigned?, hall, List.isEmpty_eq_false_iff.2 hne]
  rfl

theorem ne_of_isDigit {c d : Char} (hc : isDigit c) (hd : isDigit d = false) : c ≠ d := by
  rintro rfl
  simp [hc] at hd

theorem exponent?_toString (e : Int) : exponent? ('e' :: (toString e).toList) = some e := by
  rw [Affine.toString_eq, Affine.leadingSign]
  split_ifs with he
  · rw [List.singleton_append, exponent?, unsigned?_toString, Option.map_some, Option.some.injEq]
    change -(e.natAbs : Int) = e
    omega
  · have hnonneg : Int.ofNat e.natAbs = e := by
      change (e.natAbs : Int) = e
      omega
    have hnot {d : Char} (hd : isDigit d = false) (r : List Char) : (toString e.natAbs).toList ≠ d :: r := fun h =>
      ne_of_isDigit (isDigit_of_mem_toString (h ▸ List.mem_cons_self)) hd rfl
    rw [List.nil_append]
    unfold exponent?
    split
    · next h => cases h
    · next h => exact absurd (List.cons.inj h).2 (hnot rfl _)
    · next h => exact absurd (List.cons.inj h).2 (hnot rfl _)
    · next h =>
      rw [← (List.cons.inj h).2, unsigned?_toString, Option.map_some, hnonneg]

theorem exponent?_marked : exponent? n.marked = some (n.exponent.getD 0) := by
  rw [Numeral.marked]
  cases n.exponent with
  | none => rfl
  | some e => exact exponent?_toString e

theorem floating?_text : floating? n.text = some n.value := by
  -- the digits end where the mark of the exponent or the point begins, and hold neither
  have hmarked : ∀ c ∈ n.marked.head?, (!isExponentMark c) = false := by
    rw [Numeral.marked]
    cases n.exponent with
    | none => simp
    | some e => exact stop_cons rfl
  have hpointed : ∀ c ∈ n.pointed.head?, (c != '.') = false := by
    rw [Numeral.pointed]
    split_ifs
    · simp
    · exact stop_cons rfl
  have hplain {c : Char} (hc : isDigit c) : (c != '.') = true ∧ (!isExponentMark c) = true := by
    have hpoint : c ≠ '.' := ne_of_isDigit hc rfl
    have hlower : c ≠ 'e' := ne_of_isDigit hc rfl
    have hupper : c ≠ 'E' := ne_of_isDigit hc rfl
    simp [isExponentMark, hpoint, hlower, hupper]
  have hdigits : unsigned? (n.whole ++ n.fraction) = some (valueOf (n.whole ++ n.fraction)) :=
    unsigned?_of_digits (by simp [n.whole_ne]) n.digits
  obtain ⟨hwhole, hfraction⟩ := List.forall_mem_append.1 n.digits
  have hmantissa : ∀ c ∈ n.whole ++ n.pointed, (!isExponentMark c) = true := by
    refine List.forall_mem_append.2 ⟨fun c hc => (hplain (hwhole c hc)).2, ?_⟩
    rw [Numeral.pointed]
    split_ifs
    · exact fun c hc => absurd hc List.not_mem_nil
    · exact List.forall_mem_cons.2 ⟨rfl, fun c hc => (hplain (hfraction c hc)).2⟩
  have hdrop : n.pointed.drop 1 = n.fraction := by
    rw [Numeral.pointed]
    split_ifs with h
    · exact (List.isEmpty_iff.1 h).symm
    · rfl
  have hfloating : (n.pointed.isEmpty && n.marked.isEmpty) = false := by
    rw [Numeral.pointed, Numeral.marked]
    rcases n.floating with h | h
    · simp [h]
    · cases he : n.exponent with
      | none => exact absurd he h
      | some e => simp
  have hwhole' : ∀ c ∈ n.whole, (c != '.') = true := fun c hc => (hplain (hwhole c hc)).1
  simp only [floating?, Numeral.text, takeWhile_of_stop hmantissa hmarked, dropWhile_of_stop hmantissa hmarked,
    takeWhile_of_stop hwhole' hpointed, dropWhile_of_stop hwhole' hpointed, hfloating, hdrop, hdigits,
    exponent?_marked, Bool.false_eq_true, if_false]
  rfl

end Reading

section Layouts

theorem valueOf_append (ds es : List Char) : valueOf (ds ++ es) = 10 ^ es.length * valueOf ds + valueOf es := by
  have hfold : Nat.ofDigitChars 10 es (valueOf ds) = 10 ^ es.length * valueOf ds + Nat.ofDigitChars 10 es 0 :=
    Nat.ofDigitChars_eq_ofDigitChars_zero
  rw [valueOf, List.foldl_append]
  exact hfold

theorem valueOf_digits (n : Nat) : valueOf (Decimal.digits n) = n := Nat.ofDigitChars_ten_toDigits

theorem valueOf_zeros (n : Nat) : valueOf (zeros n) = 0 := by
  induction n with
  | zero => rfl
  | succ n ih => exact ih

theorem length_zeros (n : Nat) : (zeros n).length = n := List.length_replicate

theorem isDigit_digits (n : Nat) : ∀ c ∈ Decimal.digits n, isDigit c :=
  fun _ hc => Nat.isDigit_of_mem_toDigits (by decide) (by decide) hc

theorem isDigit_zeros (n : Nat) : ∀ c ∈ zeros n, isDigit c := by
  intro c hc
  rw [List.eq_of_mem_replicate hc]
  rfl

theorem digits_ne_nil (n : Nat) : Decimal.digits n ≠ [] := Nat.toDigits_ne_nil

def Shows (cs : List Char) (s : Scaled) : Prop := ∃ n : Numeral, n.text = cs ∧ n.value = s.toRat

theorem shows_exponential (s : Scaled) : Shows (exponential s) s := by
  have hdigits := isDigit_digits s.significand
  refine ⟨⟨(Decimal.digits s.significand).take 1, (Decimal.digits s.significand).drop 1,
    some (s.exponent + ((Decimal.digits s.significand).drop 1).length), ?_, ?_, Or.inr (by simp)⟩, rfl, ?_⟩
  · simp [digits_ne_nil]
  · rwa [List.take_append_drop]
  · simp only [Numeral.value, List.take_append_drop, valueOf_digits, Option.getD_some, add_sub_cancel_right]
    rfl

theorem shows_whole {s : Scaled} (h : 0 ≤ s.exponent) :
    Shows (Decimal.digits s.significand ++ zeros s.exponent.toNat ++ ['.', '0']) s := by
  refine ⟨⟨Decimal.digits s.significand ++ zeros s.exponent.toNat, ['0'], none, ?_, ?_, Or.inl (by simp)⟩, ?_, ?_⟩
  · simp [digits_ne_nil]
  · exact List.forall_mem_append.2 ⟨List.forall_mem_append.2 ⟨isDigit_digits _, isDigit_zeros _⟩,
      List.forall_mem_singleton.2 rfl⟩
  · simp [Numeral.text, Numeral.pointed, Numeral.marked]
  · have hlast : valueOf ['0'] = 0 := rfl
    have hexponent : s.exponent = s.exponent.toNat := by omega
    simp only [Numeral.value, valueOf_append, valueOf_digits, valueOf_zeros, hlast, Scaled.toRat, length_zeros,
      List.length_singleton, Option.getD_none]
    rw [hexponent, zpow_natCast, Int.toNat_natCast]
    push_cast
    rw [zpow_neg_one]
    ring

theorem shows_cut {s : Scaled} {k : Nat} (hpos : 0 < k) (hk : k < (Decimal.digits s.significand).length)
    (hexponent : s.exponent = k - (Decimal.digits s.significand).length) :
    Shows ((Decimal.digits s.significand).take k ++ '.' :: (Decimal.digits s.significand).drop k) s := by
  have hfraction : (Decimal.digits s.significand).drop k ≠ [] := by simpa using hk
  refine ⟨⟨(Decimal.digits s.significand).take k, (Decimal.digits s.significand).drop k, none, ?_, ?_,
    Or.inl hfraction⟩, ?_, ?_⟩
  · simp [digits_ne_nil, Nat.ne_of_gt hpos]
  · rw [List.take_append_drop]
    exact isDigit_digits _
  · simp [Numeral.text, Numeral.pointed, Numeral.marked, hk]
  · have hplaces : 0 - (((Decimal.digits s.significand).drop k).length : Int) = s.exponent := by
      rw [List.length_drop]
      omega
    simp only [Numeral.value, List.take_append_drop, valueOf_digits, Option.getD_none, hplaces, Scaled.toRat]

theorem shows_small {s : Scaled} {k : Nat}
    (hexponent : s.exponent = -((k : Int) + (Decimal.digits s.significand).length)) :
    Shows ('0' :: '.' :: (zeros k ++ Decimal.digits s.significand)) s := by
  have hfraction : zeros k ++ Decimal.digits s.significand ≠ [] := by simp [digits_ne_nil]
  refine ⟨⟨['0'], zeros k ++ Decimal.digits s.significand, none, by simp, ?_, Or.inl hfraction⟩, ?_, ?_⟩
  · exact List.forall_mem_append.2 ⟨List.forall_mem_singleton.2 rfl,
      List.forall_mem_append.2 ⟨isDigit_zeros _, isDigit_digits _⟩⟩
  · simp [Numeral.text, Numeral.pointed, Numeral.marked, digits_ne_nil]
  · have hfirst : valueOf ['0'] = 0 := rfl
    have hplaces : 0 - ((zeros k ++ Decimal.digits s.significand).length : Int) = s.exponent := by
      rw [List.length_append, length_zeros]
      omega
    simp only [Numeral.value, valueOf_append, valueOf_digits, valueOf_zeros, hfirst, Option.getD_none, hplaces,
      Scaled.toRat, Nat.mul_zero, Nat.zero_add]

theorem shows_positional (s : Scaled) :
    Shows (if 0 ≤ s.exponent then positional s ++ ['.', '0'] else positional s) s := by
  unfold positional
  dsimp only
  split_ifs with hwhole hinner
  · exact shows_whole hwhole
  · exact shows_cut (by omega) (by omega) (by omega)
  · exact shows_small (by omega)

end Layouts

section Literals

open Float.Model in
theorem isFinite_bits {x : Float} (h : x.isFinite = true) :
    x.isNaN = false ∧ x.isInf = false ∧ x.toBits.toNat % 2 ^ 63 < infinity := by
  have hunpack : (UnpackedFloat.unpack Format.binary64 x.toBits.toBitVec).isFinite = true := h
  have hnumber : (UnpackedFloat.unpack Format.binary64 x.toBits.toBitVec).isNaN = false ∧
      (UnpackedFloat.unpack Format.binary64 x.toBits.toBitVec).isInf = false := by
    cases hu : UnpackedFloat.unpack Format.binary64 x.toBits.toBitVec with
    | notANumber | infinity s =>
      rw [hu] at hunpack
      cases hunpack
    | zero s | finite s m e hm => exact ⟨rfl, rfl⟩
  refine ⟨hnumber.1, hnumber.2, ?_⟩
  have hexponent : @UnpackedFloat.unpackExponent Format.binary64 x.toBits.toBitVec ≠ -1#11 := by
    intro hones
    delta UnpackedFloat.unpack at hunpack
    dsimp only at hunpack
    rw [if_pos hones] at hunpack
    split at hunpack <;> cases hunpack
  have hne : x.toBits.toNat / 2 ^ 52 % 2 ^ 11 ≠ 2047 := by
    intro hones
    refine hexponent (BitVec.eq_of_toNat_eq ?_)
    simpa [UnpackedFloat.unpackExponent, Nat.shiftRight_eq_div_pow] using hones
  have hlt := x.toBits.toNat_lt
  unfold infinity
  omega

open Float.Model in
theorem exists_toBits {n : Nat} (h : n ≤ infinity) : ∃ x : Float, x.toBits.toNat = n := by
  have hlt : n < 2 ^ 64 := Nat.lt_of_le_of_lt h (by decide)
  have hbits : (UInt64.ofNat n).toNat = n := by
    rw [UInt64.toNat_ofNat']
    exact Nat.mod_eq_of_lt hlt
  have hvalid : Format.binary64.Valid (UInt64.ofNat n).toBitVec := by
    constructor
    intro hones hmantissa
    refine absurd (BitVec.eq_of_toNat_eq ?_) hmantissa
    have hexponent : n / 2 ^ 52 % 2 ^ 11 = 2047 := by
      simpa [UnpackedFloat.unpackExponent, Nat.shiftRight_eq_div_pow, hbits] using congrArg BitVec.toNat hones
    have hzero : n % 2 ^ 52 = 0 := by
      unfold infinity at h
      omega
    simpa [UnpackedFloat.unpackMantissa, hbits] using hzero
  exact ⟨⟨⟨_, hvalid⟩⟩, hbits⟩

theorem toBits_eq (x : Float) :
    x.toBits.toNat = (if isNegative x.toBits.toNat then 2 ^ 63 else 0) + x.toBits.toNat % 2 ^ 63 := by
  have hlt := x.toBits.toNat_lt
  have hsign : isNegative x.toBits.toNat = true ↔ x.toBits.toNat / 2 ^ 63 % 2 = 1 := by
    rw [isNegative, Nat.shiftRight_eq_div_pow, beq_iff_eq]
  split_ifs with h
  · rw [hsign] at h
    omega
  · rw [hsign] at h
    omega

theorem ofBits_mod (bits : Nat) : Binary.ofBits (bits % 2 ^ 63) = Binary.ofBits bits := by
  have hfraction : bits % 2 ^ 63 % (1 <<< 52) = bits % (1 <<< 52) := by
    rw [Nat.one_shiftLeft]
    omega
  have hbiased : (bits % 2 ^ 63) >>> 52 % (1 <<< 11) = bits >>> 52 % (1 <<< 11) := by
    rw [Nat.one_shiftLeft, Nat.shiftRight_eq_div_pow, Nat.shiftRight_eq_div_pow]
    omega
  simp only [Binary.ofBits, hfraction, hbiased]

theorem exists_literal {x : Float} (h : x.isFinite = true) : ∃ n : Numeral,
    (literal x).toList = (if isNegative x.toBits.toNat then '-' :: n.text else n.text) ∧
      RoundsTo n.value (x.toBits.toNat % 2 ^ 63) := by
  obtain ⟨hnan, hinf, hbits⟩ := isFinite_bits h
  have hshows : Shows (if x.abs != 0 && (x.abs < 1e-4 || x.abs ≥ 1e16) then
      exponential (shortest (.ofBits x.toBits.toNat))
    else if 0 ≤ (shortest (.ofBits x.toBits.toNat)).exponent then
      positional (shortest (.ofBits x.toBits.toNat)) ++ ['.', '0']
    else positional (shortest (.ofBits x.toBits.toNat))) (shortest (.ofBits x.toBits.toNat)) := by
    split
    · exact shows_exponential _
    · exact shows_positional _
  obtain ⟨n, htext, hvalue⟩ := hshows
  refine ⟨n, ?_, ?_⟩
  · rw [literal, signed, hnan, if_neg Bool.false_ne_true]
    dsimp only
    rw [hinf, if_neg Bool.false_ne_true, String.toList_ofList, htext]
  · rw [hvalue, ← ofBits_mod]
    exact shortest_roundsTo hbits

end Literals

end LoopNest.Decimal

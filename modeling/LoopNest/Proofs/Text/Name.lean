import LoopNest.Decimal.Integer
import LoopNest.Text.Blank
import LoopNest.Text.Name
import Mathlib.Data.List.Nodup
import Mathlib.Data.List.Perm.Subperm

namespace LoopNest.Name

theorem repr_injective {m n : Nat} (h : m.repr = n.repr) : m = n := by
  have hdigits := congrArg String.toList h
  rw [Nat.toList_repr, Nat.toList_repr] at hdigits
  have hvalue := congrArg (Nat.ofDigitChars 10 · 0) hdigits
  simpa [Nat.ofDigitChars_toDigits] using hvalue

theorem numbered_injective (base : String) {m n : Nat} (h : numbered base m = numbered base n) : m = n := by
  have hchars := congrArg String.toList h
  simp only [numbered, String.toList_append, List.append_cancel_left_eq] at hchars
  exact repr_injective (String.toList_inj.1 hchars)

theorem firstFree_not_mem {base : String} {taken : List String} {n tries : Nat}
    (h : ∃ k, n ≤ k ∧ k < n + tries ∧ numbered base k ∉ taken) : firstFree base taken n tries ∉ taken := by
  induction tries generalizing n with
  | zero =>
    obtain ⟨k, hle, hlt, -⟩ := h
    omega
  | succ tries ih =>
    rw [firstFree]
    split
    · next htaken =>
      obtain ⟨k, hle, hlt, hk⟩ := h
      have hne : k ≠ n := by
        rintro rfl
        exact hk (by simpa using htaken)
      exact ih ⟨k, by omega, by omega, hk⟩
    · next hfree => simpa using hfree

theorem exists_numbered_not_mem (base : String) (taken : List String) :
    ∃ k, 1 ≤ k ∧ k < 1 + (taken.length + 1) ∧ numbered base k ∉ taken := by
  by_contra hnone
  have hsub : (List.range' 1 (taken.length + 1)).map (numbered base) ⊆ taken := by
    intro name hname
    obtain ⟨k, hk, rfl⟩ := List.mem_map.1 hname
    obtain ⟨hle, hlt⟩ := List.mem_range'_1.1 hk
    by_contra hfree
    exact hnone ⟨k, hle, hlt, hfree⟩
  have hnodup : ((List.range' 1 (taken.length + 1)).map (numbered base)).Nodup :=
    List.Nodup.map (fun _ _ h => numbered_injective base h) (List.nodup_range')
  have hlen := (List.subperm_of_subset hnodup hsub).length_le
  rw [List.length_map, List.length_range'] at hlen
  omega

theorem fresh_not_mem (base : String) (taken : List String) : fresh base taken ∉ taken := by
  rw [fresh]
  split
  · exact firstFree_not_mem (exists_numbered_not_mem base taken)
  · next hfree => simpa using hfree

section Characters

theorem isLetter_iff {c : Char} :
    isLetter c ↔ 97 ≤ c.toNat ∧ c.toNat ≤ 122 ∨ 65 ≤ c.toNat ∧ c.toNat ≤ 90 ∨ c.toNat = 95 := by
  simp only [isLetter, Bool.or_eq_true, Bool.and_eq_true, decide_eq_true_eq, beq_iff_eq, Char.le_def,
    UInt32.le_iff_toNat_le, ← Char.toNat_inj, or_assoc]
  rfl

theorem isDigit_iff {c : Char} : Decimal.isDigit c ↔ 48 ≤ c.toNat ∧ c.toNat ≤ 57 := by
  simp only [Decimal.isDigit, Bool.and_eq_true, decide_eq_true_eq, Char.le_def, UInt32.le_iff_toNat_le]
  rfl

theorem isTail_iff {c : Char} : isTail c ↔ isLetter c ∨ Decimal.isDigit c := Bool.or_eq_true _ _ ▸ Iff.rfl

theorem isTail_of_isDigit {c : Char} (h : Decimal.isDigit c) : isTail c := isTail_iff.2 (Or.inr h)

theorem isTail_of_isLetter {c : Char} (h : isLetter c) : isTail c := isTail_iff.2 (Or.inl h)

theorem not_isDigit_of_isLetter {c : Char} (h : isLetter c) : Decimal.isDigit c = false := by
  rw [isLetter_iff] at h
  rw [← Bool.not_eq_true, isDigit_iff]
  omega

theorem not_blank_of_isTail {c : Char} (h : isTail c) : Text.isBlank c = false := by
  rw [isTail_iff, isLetter_iff, isDigit_iff] at h
  have hval : c.val.toNat = c.toNat := rfl
  simp only [Text.isBlank, Bool.or_eq_false_iff, Bool.and_eq_false_iff, decide_eq_false_iff_not,
    beq_eq_false_iff_ne, UInt32.le_iff_toNat_le, ← UInt32.toNat_inj, ne_eq, UInt32.reduceToNat, hval]
  omega

theorem ne_of_isTail {c d : Char} (hc : isTail c) (hd : isTail d = false) : c ≠ d := by
  rintro rfl
  rw [hc] at hd
  cases hd

theorem isTail_of_mem_toString {n : Nat} {c : Char} (hc : c ∈ (toString n).toList) : isTail c :=
  isTail_of_isDigit (Decimal.isDigit_of_mem_toString hc)

theorem isIdentifier_iff {a : String} :
    isIdentifier a ↔ ∃ c r, a.toList = c :: r ∧ isLetter c ∧ ∀ d ∈ r, isTail d := by
  rw [isIdentifier]
  cases a.toList with
  | nil => simp [isIdentifierChars]
  | cons c r => simp [isIdentifierChars]

theorem isTail_of_mem {a : String} (h : isIdentifier a) : ∀ c ∈ a.toList, isTail c := by
  obtain ⟨c, r, ha, hc, hr⟩ := isIdentifier_iff.1 h
  rw [ha]
  exact List.forall_mem_cons.2 ⟨isTail_of_isLetter hc, hr⟩

end Characters

def Extends (base a : String) : Prop := ∃ tail : List Char, (∀ c ∈ tail, isTail c) ∧ a.toList = base.toList ++ tail

theorem Extends.refl (a : String) : Extends a a := ⟨[], by simp, by simp⟩

theorem Extends.trans {a b c : String} (hab : Extends a b) (hbc : Extends b c) : Extends a c := by
  obtain ⟨s, hs, hb⟩ := hab
  obtain ⟨t, ht, hc⟩ := hbc
  refine ⟨s ++ t, fun d hd => ?_, by rw [hc, hb, List.append_assoc]⟩
  exact (List.mem_append.1 hd).elim (hs d) (ht d)

theorem Extends.forall_mem {P : Char → Prop} {base a : String} (h : Extends base a) (hbase : ∀ c ∈ base.toList, P c)
    (htail : ∀ c, isTail c → P c) : ∀ c ∈ a.toList, P c := by
  obtain ⟨tail, hall, ha⟩ := h
  intro c hc
  rw [ha] at hc
  exact (List.mem_append.1 hc).elim (hbase c) fun hc => htail c (hall c hc)

theorem Extends.ne_empty {base a : String} (h : Extends base a) (hbase : base ≠ "") : a ≠ "" := by
  obtain ⟨tail, -, ha⟩ := h
  rintro rfl
  exact hbase (String.toList_eq_nil_iff.1 (List.append_eq_nil_iff.1 ha.symm).1)

theorem Extends.isIdentifier {base a : String} (h : Extends base a) (hbase : isIdentifier base) : isIdentifier a := by
  obtain ⟨c, r, hchars, hc, hr⟩ := isIdentifier_iff.1 hbase
  obtain ⟨tail, htail, ha⟩ := h
  rw [hchars, List.cons_append] at ha
  exact isIdentifier_iff.2 ⟨c, r ++ tail, ha, hc, List.forall_mem_append.2 ⟨hr, htail⟩⟩

theorem extends_append {base tail : String} (h : ∀ c ∈ tail.toList, isTail c) : Extends base (base ++ tail) :=
  ⟨tail.toList, h, String.toList_append⟩

theorem extends_numbered (base : String) (n : Nat) : Extends base (numbered base n) := by
  exact (extends_append (List.all_eq_true.1 (by decide))).trans (extends_append fun c hc => isTail_of_mem_toString hc)

theorem extends_firstFree (base : String) (taken : List String) (n tries : Nat) :
    Extends base (firstFree base taken n tries) := by
  induction tries generalizing n with
  | zero => exact .refl base
  | succ tries ih =>
    rw [firstFree]
    split
    · exact ih (n + 1)
    · exact extends_numbered base n

theorem extends_fresh (base : String) (taken : List String) : Extends base (fresh base taken) := by
  rw [fresh]
  split
  · exact extends_firstFree base taken _ _
  · exact .refl base

end LoopNest.Name

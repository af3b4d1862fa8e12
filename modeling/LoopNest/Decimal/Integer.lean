namespace LoopNest.Decimal

def isDigit (c : Char) : Bool := '0' ≤ c && c ≤ '9'

def digitValue (c : Char) : Nat := c.toNat - '0'.toNat

def valueOf (ds : List Char) : Nat := ds.foldl (fun n c => 10 * n + digitValue c) 0

def unsigned? (ds : List Char) : Option Nat :=
  if ds.isEmpty || !ds.all isDigit then none else some (valueOf ds)

inductive IntegerIssue where
  | empty
  | invalidDigit
  | tooLarge
  deriving DecidableEq

def IntegerIssue.message : IntegerIssue → String
  | empty => "cannot parse integer from empty string"
  | invalidDigit => "invalid digit found in string"
  | tooLarge => "number too large to fit in target type"

def scan (limit : Nat) : Nat → List Char → Except IntegerIssue Nat
  | n, [] => .ok n
  | n, c :: r =>
    if !isDigit c then .error .invalidDigit
    else if limit < 10 * n + digitValue c then .error .tooLarge
    else scan limit (10 * n + digitValue c) r

def read (limit : Nat) (s : String) : Except IntegerIssue Nat :=
  match s.toList with
  | [] => .error .empty
  | ['+'] => .error .invalidDigit
  | '+' :: ds => scan limit 0 ds
  | ds => scan limit 0 ds

def natUpTo? (limit : Nat) (s : String) : Option Nat := (read limit s).toOption

def word32Max : Nat := 4294967295

def word64Max : Nat := 18446744073709551615

theorem le_ofDigitChars (ds : List Char) (n : Nat) : n ≤ Nat.ofDigitChars 10 ds n := by
  rw [Nat.ofDigitChars_eq_ofDigitChars_zero]
  calc n ≤ 10 ^ ds.length * n := Nat.le_mul_of_pos_left n (Nat.pow_pos (by decide))
    _ ≤ _ := Nat.le_add_right _ _

theorem scan_eq_ok {limit n m : Nat} {ds : List Char} (hn : n ≤ limit) :
    scan limit n ds = .ok m ↔ (∀ c ∈ ds, isDigit c) ∧ Nat.ofDigitChars 10 ds n = m ∧ m ≤ limit := by
  induction ds generalizing n with
  | nil =>
    simp only [scan, Except.ok.injEq, List.not_mem_nil, false_implies, implies_true, true_and,
      Nat.ofDigitChars_nil]
    exact ⟨fun h => ⟨h, h ▸ hn⟩, And.left⟩
  | cons c r ih =>
    rw [scan, List.forall_mem_cons, Nat.ofDigitChars_cons]
    change _ ↔ _ ∧ Nat.ofDigitChars 10 r (10 * n + digitValue c) = m ∧ _
    split
    · next hc => simp_all
    · next hc =>
      have hc : isDigit c := by simpa using hc
      split
      · next hlarge =>
        have hle := le_ofDigitChars r (10 * n + digitValue c)
        simp only [reduceCtorEq, false_iff]
        rintro ⟨-, rfl, hm⟩
        omega
      · next hsmall => rw [ih (by omega), and_iff_right hc]

theorem natUpTo?_le {limit n : Nat} {s : String} (h : natUpTo? limit s = some n) : n ≤ limit := by
  have hread : read limit s = .ok n := by
    cases hr : read limit s <;> simp_all [natUpTo?, Except.toOption]
  rw [read] at hread
  split at hread
  · cases hread
  · cases hread
  · exact ((scan_eq_ok (Nat.zero_le _)).1 hread).2.2
  · exact ((scan_eq_ok (Nat.zero_le _)).1 hread).2.2

theorem isDigit_of_mem_toString {n : Nat} {c : Char} (hc : c ∈ (toString n).toList) : isDigit c := by
  rw [Nat.toString_eq_repr, Nat.toList_repr] at hc
  exact Nat.isDigit_of_mem_toDigits (by decide) (by decide) hc

theorem toString_ne_nil (n : Nat) : (toString n).toList ≠ [] := by
  rw [Nat.toString_eq_repr, Nat.toList_repr]
  exact Nat.toDigits_ne_nil

theorem ofDigitChars_toString (n : Nat) : Nat.ofDigitChars 10 (toString n).toList 0 = n := by
  rw [Nat.toString_eq_repr, Nat.toList_repr, Nat.ofDigitChars_ten_toDigits]

theorem unsigned?_toString (n : Nat) : unsigned? (toString n).toList = some n := by
  have hall : (toString n).toList.all isDigit = true := List.all_eq_true.2 fun c hc => isDigit_of_mem_toString hc
  rw [unsigned?, hall, List.isEmpty_eq_false_iff.2 (toString_ne_nil n)]
  exact congrArg some (ofDigitChars_toString n)

theorem natUpTo?_toString {limit n : Nat} (h : n ≤ limit) : natUpTo? limit (toString n) = some n := by
  have hne := toString_ne_nil n
  have hdigits : ∀ c ∈ (toString n).toList, isDigit c := fun c hc => isDigit_of_mem_toString hc
  have hscan := (scan_eq_ok (Nat.zero_le limit)).2 ⟨hdigits, ofDigitChars_toString n, h⟩
  -- a plus sign is no digit, so the text is read as it stands
  have hread : read limit (toString n) = scan limit 0 (toString n).toList := by
    rw [read]
    split
    · next hnil => exact absurd hnil hne
    · next hplus => exact absurd (hdigits '+' (hplus ▸ List.mem_cons_self)) (by decide)
    · next hplus => exact absurd (hdigits '+' (hplus ▸ List.mem_cons_self)) (by decide)
    · rfl
  rw [natUpTo?, hread, hscan]
  rfl

end LoopNest.Decimal

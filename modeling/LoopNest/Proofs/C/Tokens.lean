import LoopNest.Proofs.Text.Name
import LoopNest.Proofs.Text.Words

namespace LoopNest.C

inductive Token where
  | word (s : String)
  | number (s : String)
  | mark (c : Char)
  | pair (c d : Char)
  deriving DecidableEq

def isSpace (c : Char) : Bool := c == ' ' || (9 ≤ c.toNat && c.toNat ≤ 13)

def isPair (c d : Char) : Bool :=
  (d == '=' && ['+', '-', '*', '/', '%', '<', '>', '=', '!', '&', '|', '^'].contains c) ||
    (d == c && ['+', '-', '<', '>', '&', '|', '#'].contains c) || (c == '-' && d == '>')

def continuesNumber (cs : List Char) (c : Char) : Bool :=
  Name.isTail c || c == '.' ||
    ((c == '+' || c == '-') && (cs.getLast?.any fun e => ['e', 'E', 'p', 'P'].contains e))

inductive Pending where
  | nothing
  | word (cs : List Char)
  | number (cs : List Char)
  | mark (c : Char)

namespace Pending

def tokens : Pending → List Token
  | nothing => []
  | word cs => [.word (String.ofList cs)]
  | number cs => [.number (String.ofList cs)]
  | mark c => [.mark c]

def opening (c : Char) : Pending :=
  if isSpace c then nothing
  else if Name.isLetter c then word [c]
  else if Decimal.isDigit c then number [c]
  else mark c

def extend : Pending → Char → Option (List Token × Pending)
  | nothing, _ => none
  | word cs, c => if Name.isTail c then some ([], word (cs ++ [c])) else none
  | number cs, c => if continuesNumber cs c then some ([], number (cs ++ [c])) else none
  | mark m, c => if isPair m c then some ([.pair m c], nothing) else none

def step (s : Pending) (c : Char) : List Token × Pending := (s.extend c).getD (s.tokens, opening c)

end Pending

def lexFrom : Pending → List Char → List Token
  | s, [] => s.tokens
  | s, c :: r => (s.step c).1 ++ lexFrom (s.step c).2 r

def lex (cs : List Char) : List Token := lexFrom .nothing cs

def isDirective (line : List Char) : Bool := (line.dropWhile isSpace).head? == some '#'

def lineTokens (line : List Char) : List Token := if isDirective line then [] else lex line

def tokens (text : List Char) : List Token := (Text.splitWhere (· == '\n') text).flatMap lineTokens

section Cuts

def isCut (c : Char) : Bool := !Name.isTail c && !(['.', '+', '-', '=', '<', '>', '&', '|', '#'].contains c)

theorem extend_of_cut {c : Char} (hc : isCut c) (s : Pending) : s.extend c = none := by
  simp only [isCut, Bool.and_eq_true, Bool.not_eq_true', List.contains_eq_mem, decide_eq_false_iff_not] at hc
  obtain ⟨htail, hmarks⟩ := hc
  cases s with
  | nothing => rfl
  | word cs => rw [Pending.extend, htail, if_neg Bool.false_ne_true]
  | number cs =>
    have hnumber : continuesNumber cs c = false := by
      simp only [continuesNumber, htail]
      simp_all
    rw [Pending.extend, hnumber, if_neg Bool.false_ne_true]
  | mark m =>
    have hpair : isPair m c = false := by
      simp only [isPair]
      rw [Bool.eq_false_iff]
      intro h
      simp only [Bool.or_eq_true, Bool.and_eq_true, beq_iff_eq, List.contains_eq_mem, decide_eq_true_eq] at h
      rcases h with (⟨rfl, -⟩ | ⟨rfl, hm⟩) | ⟨-, rfl⟩
      · simp at hmarks
      · simp_all
      · simp at hmarks
    rw [Pending.extend, hpair, if_neg Bool.false_ne_true]

theorem lex_cons (c : Char) (r : List Char) : lex (c :: r) = lexFrom (.opening c) r := rfl

theorem lexFrom_cons {s : Pending} {c : Char} (h : s.extend c = none) (r : List Char) :
    lexFrom s (c :: r) = s.tokens ++ lex (c :: r) := by
  rw [lexFrom, Pending.step, h, Option.getD_none, lex_cons]

theorem lex_append_cut {c : Char} (hc : isCut c) (l r : List Char) : lex (l ++ c :: r) = lex l ++ lex (c :: r) := by
  suffices h : ∀ s, lexFrom s (l ++ c :: r) = lexFrom s l ++ lex (c :: r) from h _
  induction l with
  | nil => exact fun s => lexFrom_cons (extend_of_cut hc s) r
  | cons d l ih =>
    intro s
    rw [List.cons_append, lexFrom, lexFrom, ih, List.append_assoc]

theorem lex_space {c : Char} (hc : isSpace c) (r : List Char) : lex (c :: r) = lex r := by
  rw [lex_cons, Pending.opening, if_pos hc, lex]

theorem opening_mark {c : Char} (hspace : isSpace c = false) (htail : Name.isTail c = false) :
    Pending.opening c = .mark c := by
  have hletter : Name.isLetter c = false := by
    rw [Bool.eq_false_iff]
    exact fun h => by simp [Name.isTail_of_isLetter h] at htail
  have hdigit : Decimal.isDigit c = false := by
    rw [Bool.eq_false_iff]
    exact fun h => by simp [Name.isTail_of_isDigit h] at htail
  simp [Pending.opening, hspace, hletter, hdigit]

theorem lex_mark {c : Char} (hspace : isSpace c = false) (htail : Name.isTail c = false) {r : List Char}
    (hr : ∀ d ∈ r.head?, isPair c d = false) : lex (c :: r) = .mark c :: lex r := by
  rw [lex_cons, opening_mark hspace htail]
  cases r with
  | nil => rfl
  | cons d r =>
    rw [lexFrom_cons (by simp [Pending.extend, hr d rfl])]
    rfl

def infixMarks : List Char := ['*', '/', '+', '-', '<', '=']

theorem lex_infix {c : Char} (hc : c ∈ infixMarks) (l r : List Char) :
    lex (l ++ ' ' :: c :: ' ' :: r) = lex l ++ .mark c :: lex r := by
  have hmark : infixMarks.all (fun c => !isSpace c && !Name.isTail c && !isPair c ' ') = true := rfl
  have hc := List.all_eq_true.1 hmark c hc
  simp only [Bool.and_eq_true, Bool.not_eq_true'] at hc
  obtain ⟨⟨hspace, htail⟩, hpair⟩ := hc
  rw [lex_append_cut rfl, lex_space rfl, lex_mark hspace htail (by simpa using hpair), lex_space rfl]

end Cuts

section Words

theorem lexFrom_word {l r : List Char} (hl : ∀ c ∈ l, Name.isTail c) (hr : ∀ c ∈ r.head?, Name.isTail c = false)
    (cs : List Char) : lexFrom (.word cs) (l ++ r) = .word (String.ofList (cs ++ l)) :: lex r := by
  induction l generalizing cs with
  | nil =>
    cases r with
    | nil => simp [lexFrom, lex, Pending.tokens]
    | cons c r =>
      rw [List.nil_append, lexFrom_cons (by simp [Pending.extend, hr c rfl]), List.append_nil]
      rfl
  | cons c l ih =>
    obtain ⟨hc, hl⟩ := List.forall_mem_cons.1 hl
    have hstep : Pending.step (.word cs) c = ([], .word (cs ++ [c])) := by simp [Pending.step, Pending.extend, hc]
    rw [List.cons_append, lexFrom, hstep, List.nil_append, ih hl, List.append_assoc, List.singleton_append]

theorem lexFrom_number {cs r : List Char} (hr : ∀ c ∈ r, Name.isTail c) :
    lexFrom (.number cs) r = [.number (String.ofList (cs ++ r))] := by
  induction r generalizing cs with
  | nil => simp [lexFrom, Pending.tokens]
  | cons c r ih =>
    obtain ⟨hc, hr⟩ := List.forall_mem_cons.1 hr
    have hstep : Pending.step (.number cs) c = ([], .number (cs ++ [c])) := by
      simp [Pending.step, Pending.extend, continuesNumber, hc]
    rw [lexFrom, hstep, List.nil_append, ih hr, List.append_assoc, List.singleton_append]

theorem not_isSpace_of_isTail {c : Char} (h : Name.isTail c) : isSpace c = false := by
  rw [Name.isTail_iff, Name.isLetter_iff, Name.isDigit_iff] at h
  simp only [isSpace, Bool.or_eq_false_iff, Bool.and_eq_false_iff, decide_eq_false_iff_not, beq_eq_false_iff_ne,
    ne_eq, ← Char.toNat_inj, Char.reduceToNat]
  omega

theorem lex_identifier_append {s : String} (h : Name.isIdentifier s) {r : List Char}
    (hr : ∀ c ∈ r.head?, Name.isTail c = false) : lex (s.toList ++ r) = .word s :: lex r := by
  obtain ⟨c, l, hs, hc, hl⟩ := Name.isIdentifier_iff.1 h
  have hspace := not_isSpace_of_isTail (Name.isTail_of_isLetter hc)
  have hopen : Pending.opening c = .word [c] := by simp [Pending.opening, hspace, hc]
  rw [hs, List.cons_append, lex_cons, hopen, lexFrom_word hl hr, List.singleton_append, ← hs, String.ofList_toList]

theorem lex_identifier {s : String} (h : Name.isIdentifier s) : lex s.toList = [.word s] := by
  simpa [lex, lexFrom, Pending.tokens] using lex_identifier_append h (r := []) (by simp)

theorem opening_digit {c : Char} (hc : Decimal.isDigit c) : Pending.opening c = .number [c] := by
  have hspace := not_isSpace_of_isTail (Name.isTail_of_isDigit hc)
  have hletter : Name.isLetter c = false := by
    rw [Bool.eq_false_iff]
    exact fun h => by simp [Name.not_isDigit_of_isLetter h] at hc
  simp [Pending.opening, hspace, hletter, hc]

theorem lex_toString (n : Nat) : lex (toString n).toList = [.number (toString n)] := by
  obtain ⟨c, r, hs⟩ := List.exists_cons_of_ne_nil (Decimal.toString_ne_nil n)
  have hdigits : ∀ d ∈ c :: r, Decimal.isDigit d := fun d hd => Decimal.isDigit_of_mem_toString (hs ▸ hd)
  obtain ⟨hc, hr⟩ := List.forall_mem_cons.1 hdigits
  rw [hs, lex_cons, opening_digit hc, lexFrom_number fun d hd => Name.isTail_of_isDigit (hr d hd),
    List.singleton_append, ← hs, String.ofList_toList]

end Words

section Lines

theorem tokens_line {l : List Char} (hl : ∀ c ∈ l, c ≠ '\n') (r : List Char) :
    tokens (l ++ '\n' :: r) = lineTokens l ++ tokens r := by
  rw [tokens, Text.splitWhere_append_cons (by simpa using hl) rfl, List.flatMap_cons]
  rfl

theorem tokens_nil : tokens [] = [] := rfl

end Lines

end LoopNest.C

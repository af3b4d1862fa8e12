import LoopNest.C.Basic
import LoopNest.Proofs.Affine.Text
import LoopNest.Proofs.C.Tokens

/-!
Reading expressions from tokens, one after the other. Products and quotients bind tighter than sums and differences,
those tighter than comparisons, signs and casts in front of an operand tighter than all of them, and operators that
bind alike group from the left. An expression whose text groups as it is put together is read back, parentheses aside.
-/

namespace LoopNest.C

/-- The arithmetic types, narrowest first. An `int` has 32 bits and a `long` has 64. -/
inductive CType where
  | int
  | long
  | float
  | double
  deriving DecidableEq

namespace CType

def name : CType → String
  | int => "int32_t"
  | long => "int64_t"
  | float => "float"
  | double => "double"

def named? (s : String) : Option CType := [int, long, float, double].find? fun t => t.name == s

end CType

namespace Expr

section Grouping

def tightness (symbol : String) : Nat :=
  if symbol = "*" ∨ symbol = "/" then 3
  else if symbol = "+" ∨ symbol = "-" then 2
  else if symbol = "<" then 1
  else 0

def level : Expr → Nat
  | int _ => 4
  | double _ => 4
  | var _ => 5
  | neg _ => 4
  | binary symbol _ _ => tightness symbol
  | paren _ => 5
  | call _ _ => 5
  | subscript _ _ => 5
  | cast _ _ => 4

mutual

def Grouped : Expr → Prop
  | int _ => True
  | double _ => True
  | var _ => True
  | neg e => 4 ≤ e.level ∧ e.Grouped
  | binary symbol l r =>
    0 < tightness symbol ∧ tightness symbol ≤ l.level ∧ tightness symbol < r.level ∧ l.Grouped ∧ r.Grouped
  | paren e => e.Grouped
  | call _ args => GroupedAll args
  | subscript _ index => index.Grouped
  | cast _ e => 4 ≤ e.level ∧ e.Grouped

def GroupedAll : List Expr → Prop
  | [] => True
  | e :: es => e.Grouped ∧ GroupedAll es

end

end Grouping

end Expr

inductive Unary where
  | minus
  | decrement
  | cast (t : CType)

inductive Formula where
  | number (digits : String)
  | name (s : String)
  | unary (op : Unary) (e : Formula)
  | binary (op : Char) (lhs rhs : Formula)
  | apply (f : String) (e : Formula)
  | apply₂ (f : String) (lhs rhs : Formula)
  | element (array : String) (index : Formula)

namespace Formula

def binds (c : Char) : Nat := Expr.tightness (String.singleton c)

inductive Frame where
  | unary (op : Unary)
  | binary (op : Char) (lhs : Formula)
  | group
  | type (t : CType)
  | call (f : String)
  | argument (f : String) (lhs : Formula)
  | index (array : String)

structure Parse where
  stack : List Frame
  operand : Option Formula

namespace Parse

def collapse (p : Nat) : List Frame → Formula → List Frame × Formula
  | .unary op :: stack, e => collapse p stack (.unary op e)
  | .binary op lhs :: stack, e =>
    if p ≤ binds op then collapse p stack (.binary op lhs e) else (.binary op lhs :: stack, e)
  | stack, e => (stack, e)

def typed (t : CType) : List Frame → Option Parse
  | .group :: stack => some ⟨.type t :: stack, none⟩
  | _ => none

def castFrom : List Frame → Option Parse
  | .type t :: stack => some ⟨.unary (.cast t) :: stack, none⟩
  | _ => none

def before (stack : List Frame) : Token → Option Parse
  | .number digits => some ⟨stack, some (.number digits)⟩
  | .word s =>
    match CType.named? s with
    | none => some ⟨stack, some (.name s)⟩
    | some t => typed t stack
  | .mark c =>
    if c = '-' then some ⟨.unary .minus :: stack, none⟩
    else if c = '(' then some ⟨.group :: stack, none⟩
    else if c = ')' then castFrom stack
    else none
  | .pair c d => if c = '-' ∧ d = '-' then some ⟨.unary .decrement :: stack, none⟩ else none

def entered (c : Char) (stack : List Frame) : Formula → Option Parse
  | .name s => some ⟨(if c = '(' then .call s else .index s) :: stack, none⟩
  | _ => none

def delimited (c : Char) : List Frame × Formula → Option Parse
  | (.group :: stack, e) => if c = ')' then some ⟨stack, some e⟩ else none
  | (.call f :: stack, e) =>
    if c = ')' then some ⟨stack, some (.apply f e)⟩
    else if c = ',' then some ⟨.argument f e :: stack, none⟩
    else none
  | (.argument f lhs :: stack, e) => if c = ')' then some ⟨stack, some (.apply₂ f lhs e)⟩ else none
  | (.index array :: stack, e) => if c = ']' then some ⟨stack, some (.element array e)⟩ else none
  | _ => none

def after (stack : List Frame) (e : Formula) (c : Char) : Option Parse :=
  if c = '(' ∨ c = '[' then entered c stack e
  else if binds c = 0 then delimited c (collapse 1 stack e)
  else
    let (stack, lhs) := collapse (binds c) stack e
    some ⟨.binary c lhs :: stack, none⟩

def step (r : Parse) (t : Token) : Option Parse :=
  match r.operand, t with
  | none, t => before r.stack t
  | some e, .mark c => after r.stack e c
  | _, _ => none

def finish (r : Parse) : Option Formula :=
  r.operand.bind fun e =>
    match collapse 1 r.stack e with
    | ([], e) => some e
    | _ => none

end Parse

def read (ts : List Token) : Option Formula :=
  (ts.foldlM Parse.step ⟨[], none⟩).bind Parse.finish

/-- The text of the expression has the tokens of the formula, in parentheses where the expression is. A minus sign
that stands directly in front of another one is a decrement. -/
inductive Writes : Expr → Formula → Prop where
  | number {e : Expr} {s : String} (h : lex e.text.toList = [.number s]) : Writes e (.number s)
  | signed {e : Expr} {s : String} (h : lex e.text.toList = [.mark '-', .number s]) :
      Writes e (.unary .minus (.number s))
  | decrement {e : Expr} {s : String} (h : lex e.text.toList = [.pair '-' '-', .number s]) :
      Writes e (.unary .decrement (.number s))
  | var {v : String} (hv : Name.isIdentifier v) (htype : CType.named? v = none) : Writes (.var v) (.name v)
  | neg {e : Expr} {q : Formula} (he : Writes e q) (hhead : ∀ d ∈ e.text.toList.head?, isPair '-' d = false) :
      Writes (.neg e) (.unary .minus q)
  | binary {c : Char} {l r : Expr} {a b : Formula} (hl : Writes l a) (hr : Writes r b) :
      Writes (.binary (String.singleton c) l r) (.binary c a b)
  | paren {e : Expr} {q : Formula} (he : Writes e q) : Writes (.paren e) q
  | apply {f : String} {e : Expr} {q : Formula} (hf : Name.isIdentifier f) (htype : CType.named? f = none)
      (he : Writes e q) : Writes (.call f [e]) (.apply f q)
  | apply₂ {f : String} {l r : Expr} {a b : Formula} (hf : Name.isIdentifier f) (htype : CType.named? f = none)
      (hl : Writes l a) (hr : Writes r b) : Writes (.call f [l, r]) (.apply₂ f a b)
  | element {array : String} {e : Expr} {q : Formula} (harray : Name.isIdentifier array)
      (htype : CType.named? array = none) (he : Writes e q) : Writes (.subscript array e) (.element array q)
  | cast (t : CType) {e : Expr} {q : Formula} (he : Writes e q) : Writes (.cast t.name e) (.unary (.cast t) q)

end Formula

section Folds

variable {α σ : Type} {step : σ → α → Option σ} {s t : σ}

theorem foldlM_cons_some {a : α} (h : step s a = some t) (l : List α) : (a :: l).foldlM step s = l.foldlM step t := by
  rw [List.foldlM_cons, h]
  rfl

theorem foldlM_append_some {l : List α} (h : l.foldlM step s = some t) (r : List α) :
    (l ++ r).foldlM step s = r.foldlM step t := by
  rw [List.foldlM_append, h]
  rfl

end Folds

section Texts

theorem lex_binary {c : Char} (hc : c ∈ infixMarks) (l r : Expr) :
    lex (Expr.binary (String.singleton c) l r).text.toList =
      lex l.text.toList ++ .mark c :: lex r.text.toList := by
  have htext : (Expr.binary (String.singleton c) l r).text.toList =
      l.text.toList ++ ' ' :: c :: ' ' :: r.text.toList := by
    simp [Expr.text]
  rw [htext, lex_infix hc]

theorem lex_sign {r : List Char} (hr : ∀ d ∈ r.head?, isPair '-' d = false) :
    lex ('-' :: r) = .mark '-' :: lex r := lex_mark rfl rfl hr

theorem not_isPair_of_isTail {c d : Char} (hd : Name.isTail d) : isPair c d = false := by
  rw [Bool.eq_false_iff]
  intro h
  have hmarks : ['=', '+', '-', '<', '>', '&', '|', '#'].all (fun d => !Name.isTail d) = true := rfl
  have hmem : d ∈ ['=', '+', '-', '<', '>', '&', '|', '#'] := by
    simp only [isPair, Bool.or_eq_true, Bool.and_eq_true, beq_iff_eq, List.contains_eq_mem, decide_eq_true_eq] at h
    rcases h with (⟨rfl, -⟩ | ⟨rfl, hc⟩) | ⟨-, rfl⟩
    · decide
    · exact List.mem_cons_of_mem _ (by simp_all)
    · decide
  simpa [hd] using List.all_eq_true.1 hmarks d hmem

theorem lex_open (r : List Char) : lex ('(' :: r) = .mark '(' :: lex r :=
  lex_mark rfl rfl fun d _ => by simp [isPair]

theorem lex_close (r : List Char) : lex (')' :: r) = .mark ')' :: lex r :=
  lex_mark rfl rfl fun d _ => by simp [isPair]

theorem lex_comma (r : List Char) : lex (',' :: r) = .mark ',' :: lex r :=
  lex_mark rfl rfl fun d _ => by simp [isPair]

theorem lex_paren (e : Expr) :
    lex (Expr.paren e).text.toList = .mark '(' :: (lex e.text.toList ++ [.mark ')']) := by
  have htext : (Expr.paren e).text.toList = '(' :: (e.text.toList ++ [')']) := by simp [Expr.text]
  rw [htext, lex_open, lex_append_cut rfl, lex_close]
  rfl

theorem lex_call {f : String} (hf : Name.isIdentifier f) (l r : Expr) :
    lex (Expr.call f [l, r]).text.toList =
      .word f :: .mark '(' :: (lex l.text.toList ++ .mark ',' :: (lex r.text.toList ++ [.mark ')'])) := by
  have htext : (Expr.call f [l, r]).text.toList =
      f.toList ++ '(' :: (l.text.toList ++ ',' :: ' ' :: (r.text.toList ++ [')'])) := by
    simp [Expr.text, Expr.textAll]
  rw [htext, lex_append_cut rfl, lex_identifier hf, lex_open, lex_append_cut rfl, lex_comma, lex_space rfl,
    lex_append_cut rfl, lex_close]
  rfl

theorem lex_int_negative {n : Int} (hn : n < 0) :
    lex (Expr.int n).text.toList = [.mark '-', .number (toString n.natAbs)] := by
  have htext : (Expr.int n).text.toList = '-' :: (toString n.natAbs).toList := by
    rw [Expr.text, Affine.toString_eq, Affine.leadingSign, if_pos hn]
    rfl
  have hhead : ∀ d ∈ (toString n.natAbs).toList.head?, isPair '-' d = false := fun d hd =>
    not_isPair_of_isTail (Name.isTail_of_mem_toString (List.mem_of_mem_head? hd))
  rw [htext, lex_sign hhead, lex_toString]

theorem lex_apply {f : String} (hf : Name.isIdentifier f) (e : Expr) :
    lex (Expr.call f [e]).text.toList = .word f :: .mark '(' :: (lex e.text.toList ++ [.mark ')']) := by
  have htext : (Expr.call f [e]).text.toList = f.toList ++ '(' :: (e.text.toList ++ [')']) := by
    simp [Expr.text, Expr.textAll]
  rw [htext, lex_append_cut rfl, lex_identifier hf, lex_open, lex_append_cut rfl, lex_close]
  rfl

theorem lex_cast (t : CType) (e : Expr) :
    lex (Expr.cast t.name e).text.toList = .mark '(' :: .word t.name :: .mark ')' :: lex e.text.toList := by
  have ht : Name.isIdentifier t.name := by cases t <;> decide
  have htext : (Expr.cast t.name e).text.toList = '(' :: (t.name.toList ++ ')' :: e.text.toList) := by
    simp [Expr.text]
  rw [htext, lex_open, lex_append_cut rfl, lex_identifier ht, lex_close]
  rfl

theorem lex_neg {e : Expr} (hhead : ∀ d ∈ e.text.toList.head?, isPair '-' d = false) :
    lex (Expr.neg e).text.toList = .mark '-' :: lex e.text.toList := by
  have htext : (Expr.neg e).text.toList = '-' :: e.text.toList := by simp [Expr.text]
  rw [htext, lex_sign hhead]

theorem lex_subscript {array : String} (harray : Name.isIdentifier array) (e : Expr) :
    lex (Expr.subscript array e).text.toList = .word array :: .mark '[' :: (lex e.text.toList ++ [.mark ']']) := by
  have htext : (Expr.subscript array e).text.toList = array.toList ++ '[' :: (e.text.toList ++ [']']) := by
    simp [Expr.text]
  rw [htext, lex_append_cut rfl, lex_identifier harray, lex_mark rfl rfl (fun d _ => by simp [isPair]),
    lex_append_cut rfl]
  rfl

end Texts

namespace Formula

section Steps

open Parse

def Rests (p : Nat) : List Frame → Prop
  | .unary _ :: _ => False
  | .binary op _ :: _ => binds op < p
  | _ => True

theorem Rests.mono {p q : Nat} {stack : List Frame} (h : Rests p stack) (hpq : p ≤ q) : Rests q stack := by
  unfold Rests at h ⊢
  split
  · exact h
  · exact Nat.lt_of_lt_of_le h hpq
  · trivial

theorem collapse_of_rests {p : Nat} {stack : List Frame} (h : Rests p stack) (e : Formula) :
    collapse p stack e = (stack, e) := by
  unfold Rests at h
  unfold collapse
  split
  · exact absurd h id
  · next op lhs stack =>
    have hop : binds op < p := h
    rw [if_neg (Nat.not_le.2 hop)]
  · rfl

theorem operator_of_binds {c : Char} (hc : 0 < binds c) : c = '*' ∨ c = '/' ∨ c = '+' ∨ c = '-' ∨ c = '<' := by
  have hsingleton {d : Char} (h : String.singleton c = String.singleton d) : c = d := by
    simpa [← String.toList_inj] using h
  unfold binds Expr.tightness at hc
  split_ifs at hc with hproduct hsum hless
  · exact hproduct.elim (fun h => Or.inl (hsingleton h)) fun h => Or.inr (Or.inl (hsingleton h))
  · exact Or.inr (Or.inr (hsum.elim (fun h => Or.inl (hsingleton h)) fun h => Or.inr (Or.inl (hsingleton h))))
  · exact Or.inr (Or.inr (Or.inr (Or.inr (hsingleton hless))))
  · exact absurd hc (Nat.lt_irrefl 0)

theorem binds_lt (c : Char) : binds c < 4 := by
  unfold binds Expr.tightness
  split_ifs <;> decide

theorem mem_infixMarks {c : Char} (hc : 0 < binds c) : c ∈ infixMarks := by
  rcases operator_of_binds hc with rfl | rfl | rfl | rfl | rfl <;> decide

theorem step_operator {c : Char} (hc : 0 < binds c) {stack : List Frame} (e : Formula)
    {rest : List Frame} {lhs : Formula} (h : collapse (binds c) stack e = (rest, lhs)) :
    step ⟨stack, some e⟩ (.mark c) = some ⟨.binary c lhs :: rest, none⟩ := by
  have hne : ¬ (c = '(' ∨ c = '[') := by
    rcases operator_of_binds hc with rfl | rfl | rfl | rfl | rfl <;> decide
  simp only [step, after, if_neg hne, if_neg (Nat.ne_of_gt hc), h]

theorem step_delimiter {c : Char} (hc : c = ')' ∨ c = ',' ∨ c = ']') (stack : List Frame) (e : Formula) :
    step ⟨stack, some e⟩ (.mark c) = delimited c (collapse 1 stack e) := by
  rcases hc with rfl | rfl | rfl <;> rfl

theorem step_word {s : String} (h : CType.named? s = none) (stack : List Frame) :
    step ⟨stack, none⟩ (.word s) = some ⟨stack, some (.name s)⟩ := by
  simp only [step, before, h]

theorem step_type (t : CType) (stack : List Frame) :
    step ⟨.group :: stack, none⟩ (.word t.name) = some ⟨.type t :: stack, none⟩ := by cases t <;> rfl

end Steps

section Reading

open Parse

theorem level_pos {e : Expr} (h : e.Grouped) : 0 < e.level := by
  cases e with
  | binary symbol l r => exact h.1
  | _ => exact Nat.zero_lt_succ _

theorem Writes.exists_steps {e : Expr} {q : Formula} (h : Writes e q) (hgrouped : e.Grouped) (stack : List Frame)
    (hstack : e.level < 4 → Rests e.level stack) : ∃ front x,
      (lex e.text.toList).foldlM step ⟨stack, none⟩ = some ⟨front ++ stack, some x⟩ ∧
        ∀ p ≤ e.level, collapse p (front ++ stack) x = collapse p stack q := by
  -- the induction is on the expression, for all frames that its operators do not tear apart
  induction h generalizing stack with
  | number h =>
    refine ⟨[], _, ?_, fun p _ => rfl⟩
    rw [h]
    rfl
  | signed h =>
    refine ⟨[.unary .minus], _, ?_, fun p _ => rfl⟩
    rw [h]
    rfl
  | decrement h =>
    refine ⟨[.unary .decrement], _, ?_, fun p _ => rfl⟩
    rw [h]
    rfl
  | var hv htype =>
    refine ⟨[], _, ?_, fun p _ => rfl⟩
    rw [Expr.text, lex_identifier hv, foldlM_cons_some (step_word htype stack)]
    rfl
  | @neg e q he hhead ih =>
    obtain ⟨hlevel, hgrouped⟩ := hgrouped
    obtain ⟨front, x, hsteps, hx⟩ := ih hgrouped (.unary .minus :: stack) fun hlt => absurd hlt (Nat.not_lt.2 hlevel)
    have hsign : step ⟨stack, none⟩ (.mark '-') = some ⟨.unary .minus :: stack, none⟩ := rfl
    refine ⟨front ++ [.unary .minus], x, ?_, fun p hp => ?_⟩
    · rw [lex_neg hhead, foldlM_cons_some hsign, hsteps, List.append_assoc, List.singleton_append]
    · rw [List.append_assoc, List.singleton_append, hx p (Nat.le_trans hp hlevel)]
      rfl
  | @binary c l r a b hl hr ihl ihr =>
    obtain ⟨hpos, hleft, hright, hgl, hgr⟩ := hgrouped
    have hrests : Rests (binds c) stack := hstack (binds_lt c)
    -- what is left of the left operand collapses when the operator comes, and nothing in front of it does
    obtain ⟨front, x, hsteps, hx⟩ := ihl hgl stack fun _ => hrests.mono hleft
    obtain ⟨front', x', hsteps', hx'⟩ := ihr hgr (.binary c a :: stack) fun _ => hright
    have hmark : step ⟨front ++ stack, some x⟩ (.mark c) = some ⟨.binary c a :: stack, none⟩ :=
      step_operator hpos x ((hx _ hleft).trans (collapse_of_rests hrests a))
    refine ⟨front' ++ [.binary c a], x', ?_, fun p hp => ?_⟩
    · rw [lex_binary (mem_infixMarks hpos), foldlM_append_some hsteps, foldlM_cons_some hmark, hsteps', List.append_assoc,
        List.singleton_append]
    · have hp : p ≤ binds c := hp
      rw [List.append_assoc, List.singleton_append, hx' p (Nat.le_trans hp (Nat.le_of_lt hright)), collapse, if_pos hp]
  | @paren e q he ih =>
    obtain ⟨front, x, hsteps, hx⟩ := ih hgrouped (.group :: stack) fun _ => trivial
    -- between delimiters nothing in front of the opening one is touched
    have hopen : step ⟨stack, none⟩ (.mark '(') = some ⟨.group :: stack, none⟩ := rfl
    have hclose : step ⟨front ++ .group :: stack, some x⟩ (.mark ')') = some ⟨stack, some q⟩ := by
      rw [step_delimiter (by decide), hx 1 (level_pos hgrouped)]
      rfl
    refine ⟨[], q, ?_, fun p _ => rfl⟩
    rw [lex_paren, foldlM_cons_some hopen, foldlM_append_some hsteps, foldlM_cons_some hclose]
    rfl
  | @apply f e q hf htype he ih =>
    obtain ⟨hgrouped, -⟩ := hgrouped
    obtain ⟨front, x, hsteps, hx⟩ := ih hgrouped (.call f :: stack) fun _ => trivial
    have hopen : step ⟨stack, some (.name f)⟩ (.mark '(') = some ⟨.call f :: stack, none⟩ := rfl
    have hclose : step ⟨front ++ .call f :: stack, some x⟩ (.mark ')') = some ⟨stack, some (.apply f q)⟩ := by
      rw [step_delimiter (by decide), hx 1 (level_pos hgrouped)]
      rfl
    refine ⟨[], .apply f q, ?_, fun p _ => rfl⟩
    rw [lex_apply hf, foldlM_cons_some (step_word htype stack), foldlM_cons_some hopen, foldlM_append_some hsteps,
      foldlM_cons_some hclose]
    rfl
  | @apply₂ f l r a b hf htype hl hr ihl ihr =>
    obtain ⟨hgl, hgr, -⟩ := hgrouped
    obtain ⟨front, x, hsteps, hx⟩ := ihl hgl (.call f :: stack) fun _ => trivial
    obtain ⟨front', x', hsteps', hx'⟩ := ihr hgr (.argument f a :: stack) fun _ => trivial
    have hopen : step ⟨stack, some (.name f)⟩ (.mark '(') = some ⟨.call f :: stack, none⟩ := rfl
    have hcomma : step ⟨front ++ .call f :: stack, some x⟩ (.mark ',') = some ⟨.argument f a :: stack, none⟩ := by
      rw [step_delimiter (by decide), hx 1 (level_pos hgl)]
      rfl
    have hclose : step ⟨front' ++ .argument f a :: stack, some x'⟩ (.mark ')') =
        some ⟨stack, some (.apply₂ f a b)⟩ := by
      rw [step_delimiter (by decide), hx' 1 (level_pos hgr)]
      rfl
    refine ⟨[], .apply₂ f a b, ?_, fun p _ => rfl⟩
    rw [lex_call hf, foldlM_cons_some (step_word htype stack), foldlM_cons_some hopen, foldlM_append_some hsteps,
      foldlM_cons_some hcomma, foldlM_append_some hsteps', foldlM_cons_some hclose]
    rfl
  | @element array e q harray htype he ih =>
    obtain ⟨front, x, hsteps, hx⟩ := ih hgrouped (.index array :: stack) fun _ => trivial
    have hopen : step ⟨stack, some (.name array)⟩ (.mark '[') = some ⟨.index array :: stack, none⟩ := rfl
    have hclose : step ⟨front ++ .index array :: stack, some x⟩ (.mark ']') =
        some ⟨stack, some (.element array q)⟩ := by
      rw [step_delimiter (by decide), hx 1 (level_pos hgrouped)]
      rfl
    refine ⟨[], .element array q, ?_, fun p _ => rfl⟩
    rw [lex_subscript harray, foldlM_cons_some (step_word htype stack), foldlM_cons_some hopen,
      foldlM_append_some hsteps, foldlM_cons_some hclose]
    rfl
  | @cast t e q he ih =>
    obtain ⟨hlevel, hgrouped⟩ := hgrouped
    obtain ⟨front, x, hsteps, hx⟩ := ih hgrouped (.unary (.cast t) :: stack) fun hlt =>
      absurd hlt (Nat.not_lt.2 hlevel)
    have hopen : step ⟨stack, none⟩ (.mark '(') = some ⟨.group :: stack, none⟩ := rfl
    -- a type between parentheses makes them a cast
    have hclose : step ⟨.type t :: stack, none⟩ (.mark ')') = some ⟨.unary (.cast t) :: stack, none⟩ := rfl
    refine ⟨front ++ [.unary (.cast t)], x, ?_, fun p hp => ?_⟩
    · rw [lex_cast, foldlM_cons_some hopen, foldlM_cons_some (step_type t stack), foldlM_cons_some hclose, hsteps,
        List.append_assoc, List.singleton_append]
    · rw [List.append_assoc, List.singleton_append, hx p (Nat.le_trans hp hlevel)]
      rfl

theorem read_text {e : Expr} {q : Formula} (h : Writes e q) (hgrouped : e.Grouped) :
    read (lex e.text.toList) = some q := by
  obtain ⟨front, x, hsteps, hx⟩ := h.exists_steps hgrouped [] fun _ => trivial
  rw [read, hsteps, Option.bind_some, finish, Option.bind_some, hx 1 (level_pos hgrouped)]
  rfl

example : read (lex "-b_x / b_y - (double)l_i * 2.5e-3".toList) =
    some (.binary '-' (.binary '/' (.unary .minus (.name "b_x")) (.name "b_y"))
      (.binary '*' (.unary (.cast .double) (.name "l_i")) (.number "2.5e-3"))) := rfl

end Reading

end Formula

end LoopNest.C

import LoopNest.Proofs.C.Forms
import LoopNest.Proofs.C.Lines

namespace LoopNest.C

def numeral? (digits : String) : Option Nat := (Decimal.unsigned? digits.toList).filter fun n => toString n == digits

def arithmetic? (op : Char) (a b : Int) : Option Int :=
  if op = '*' then some (a * b)
  else if op = '+' then some (a + b)
  else if op = '-' then some (a - b)
  else if op = '<' then some (if a < b then 1 else 0)
  else none

def Formula.value (scope : List (String × Int)) : Formula → Option Int
  | number digits => (numeral? digits).map Int.ofNat
  | name s => scope.lookup s
  | unary .minus e => (e.value scope).map Int.neg
  | unary _ _ => none
  | binary op lhs rhs => do
    let a ← lhs.value scope
    let b ← rhs.value scope
    arithmetic? op a b
  | apply _ _ => none
  | apply₂ f lhs rhs => do
    let a ← lhs.value scope
    let b ← rhs.value scope
    if f = "MIN" then some (if a < b then a else b) else none
  | element _ _ => none

example : (Formula.read (lex "-l_i * 2 - 1 - (l_j + 3) < MIN(l_j, 1)".toList)).bind
    (Formula.value [("l_i", 2), ("l_j", 5)]) = some 1 := by decide +kernel

theorem numeral?_toString (n : Nat) : numeral? (toString n) = some n := by
  rw [numeral?, Decimal.unsigned?_toString, Option.filter_some, if_pos (beq_self_eq_true _)]

theorem named?_of_head {s : String} {c : Char} (h : s.toList.head? = some c) (hc : c ∉ ['i', 'f', 'd']) :
    CType.named? s = none := by
  have hall (t : CType) : ∀ d ∈ t.name.toList.head?, d ∈ ['i', 'f', 'd'] := by
    cases t <;> simp [CType.name]
  rw [CType.named?, List.find?_eq_none]
  intro t _ hname
  rw [← eq_of_beq hname] at h
  exact hc (hall t c h)

theorem named?_variableName (a : String) : CType.named? (variableName a) = none :=
  named?_of_head (c := 'l') (by simp [variableName]) (by decide)

theorem named?_bufferVar (a : String) : CType.named? (bufferVar a) = none :=
  named?_of_head (c := 'b') (by simp [bufferVar]) (by decide)

def Binds (scope : List (String × Int)) (names : List String) (env : Valuation) : Prop :=
  ∀ a ∈ names, scope.lookup (variableName a) = some (env a)

def Formula.Computes (names : List String) (x : Valuation → Int) (q : Formula) : Prop :=
  ∀ scope env, Binds scope names env → q.value scope = some (x env)

theorem composes_grouped (names : List String) : Composes names fun k e _ => e.Grouped ∧ k ≤ e.level where
  mono h hjk := ⟨h.1, Nat.le_trans hjk h.2⟩
  int n := ⟨trivial, Nat.le_refl 4⟩
  var _ := ⟨trivial, Nat.le_refl 5⟩
  neg _ := ⟨⟨Nat.le_succ 4, trivial⟩, Nat.le_refl 4⟩
  paren h := ⟨h.1, Nat.le_refl 5⟩
  mul hl hr := ⟨⟨by decide, hl.2, hr.2, hl.1, hr.1⟩, Nat.le_refl 3⟩
  add hl hr := ⟨⟨by decide, hl.2, hr.2, hl.1, hr.1⟩, Nat.le_refl 2⟩

/-- The text of the expression binds at least as tight as `k` and reads as a formula with this value. -/
structure Denotes (names : List String) (k : Nat) (e : Expr) (x : Valuation → Int) : Prop where
  plain : e.Plain
  grouped : e.Grouped ∧ k ≤ e.level
  formula : ∃ q, Formula.Writes e q ∧ q.Computes names x

section Denotes

variable {names : List String} {k : Nat} {e l r : Expr} {x y : Valuation → Int}

theorem Denotes.mono {j : Nat} (h : Denotes names k e x) (hjk : j ≤ k) : Denotes names j e x :=
  ⟨h.plain, (composes_grouped names).mono (x := x) h.grouped hjk, h.formula⟩

theorem Denotes.read (h : Denotes names k e x) :
    ∃ q, Formula.read (lex e.text.toList) = some q ∧ q.Computes names x := by
  obtain ⟨q, hwrites, hvalue⟩ := h.formula
  exact ⟨q, Formula.read_text hwrites h.grouped.1, hvalue⟩

theorem lex_int_natural (n : Nat) : lex (Expr.int n).text.toList = [.number (toString n)] := by
  have htext : (Expr.int n).text = toString n := rfl
  rw [htext, lex_toString]

theorem denotes_int (n : Int) : Denotes names 4 (.int n) fun _ => n := by
  refine ⟨Expr.plain_int n, ⟨trivial, Nat.le_refl 4⟩, ?_⟩
  rcases Decidable.em (n < 0) with hn | hn
  · refine ⟨_, .signed (lex_int_negative hn), fun scope env _ => ?_⟩
    rw [Formula.value, Formula.value, numeral?_toString]
    simp only [Option.map_some, Option.some.injEq]
    change -(n.natAbs : Int) = n
    omega
  · obtain ⟨m, rfl⟩ := Int.eq_ofNat_of_zero_le (Int.not_lt.1 hn)
    refine ⟨_, .number (lex_int_natural m), fun scope env _ => ?_⟩
    rw [Formula.value, numeral?_toString]
    rfl

theorem denotes_var {a : String} (ha : a ∈ names) (hname : Name.isIdentifier (variableName a)) :
    Denotes names 5 (.var (variableName a)) fun env => env a where
  plain := Expr.plain_var hname
  grouped := ⟨trivial, Nat.le_refl 5⟩
  formula := ⟨_, .var hname (named?_variableName a), fun _ _ henv => henv a ha⟩

theorem denotes_neg_var {a : String} (ha : a ∈ names) (hname : Name.isIdentifier (variableName a)) :
    Denotes names 4 (.neg (.var (variableName a))) fun env => -env a := by
  have hhead : ∀ d ∈ (Expr.var (variableName a)).text.toList.head?, isPair '-' d = false := by
    simp [Expr.text, variableName, isPair]
  refine ⟨(Expr.plain_var hname).neg, ⟨⟨Nat.le_succ 4, trivial⟩, Nat.le_refl 4⟩, _,
    .neg (.var hname (named?_variableName a)) hhead, fun scope env henv => ?_⟩
  rw [Formula.value, Formula.value, henv a ha]
  rfl

theorem denotes_paren (h : Denotes names k e x) : Denotes names 5 (.paren e) x where
  plain := h.plain.paren
  grouped := ⟨h.grouped.1, Nat.le_refl 5⟩
  formula := by
    obtain ⟨q, hwrites, hvalue⟩ := h.formula
    exact ⟨q, .paren hwrites, hvalue⟩

theorem Formula.Computes.binary {op : Char} {a b : Formula} {f : Int → Int → Int} (ha : a.Computes names x)
    (hb : b.Computes names y) (hop : ∀ m n, arithmetic? op m n = some (f m n)) :
    (Formula.binary op a b).Computes names fun env => f (x env) (y env) := by
  intro scope env henv
  simp only [Formula.value, ha scope env henv, hb scope env henv, Option.bind_eq_bind, Option.bind_some, hop]

theorem Denotes.binary {i j : Nat} (hl : Denotes names i l x) (hr : Denotes names j r y) (op : Char)
    {f : Int → Int → Int} (hop : ∀ m n, arithmetic? op m n = some (f m n)) (hplain : isPlain op)
    (hpos : 0 < Formula.binds op) (hi : Formula.binds op ≤ i) (hj : Formula.binds op < j) :
    Denotes names (Formula.binds op) (.binary (String.singleton op) l r) fun env => f (x env) (y env) where
  plain := hl.plain.binary hr.plain hplain
  grouped := ⟨⟨hpos, Nat.le_trans hi hl.grouped.2, Nat.lt_of_lt_of_le hj hr.grouped.2, hl.grouped.1, hr.grouped.1⟩,
    Nat.le_refl _⟩
  formula := by
    obtain ⟨a, ha, hx⟩ := hl.formula
    obtain ⟨b, hb, hy⟩ := hr.formula
    exact ⟨_, .binary ha hb, hx.binary hy hop⟩

theorem denotes_mul (hl : Denotes names 3 l x) (hr : Denotes names 4 r y) :
    Denotes names 3 (.binary "*" l r) fun env => x env * y env :=
  hl.binary hr '*' (fun _ _ => rfl) rfl (by decide) (by decide) (by decide)

theorem denotes_add (hl : Denotes names 2 l x) (hr : Denotes names 3 r y) :
    Denotes names 2 (.binary "+" l r) fun env => x env + y env :=
  hl.binary hr '+' (fun _ _ => rfl) rfl (by decide) (by decide) (by decide)

theorem denotes_less {i : Nat} (hl : Denotes names 1 l x) (hr : Denotes names i r y) (hi : 1 < i) :
    Denotes names 1 (.binary "<" l r) fun env => if x env < y env then 1 else 0 :=
  hl.binary hr '<' (f := fun m n => if m < n then 1 else 0) (fun _ _ => rfl) rfl (by decide) (by decide) hi

theorem denotes_min {i j : Nat} (hl : Denotes names i l x) (hr : Denotes names j r y) :
    Denotes names 5 (.call "MIN" [l, r]) fun env => min (x env) (y env) := by
  obtain ⟨a, ha, hx⟩ := hl.formula
  obtain ⟨b, hb, hy⟩ := hr.formula
  refine ⟨hl.plain.apply₂ (by decide) hr.plain, ⟨⟨hl.grouped.1, hr.grouped.1, trivial⟩, Nat.le_refl 5⟩, _,
    .apply₂ (by decide) (by decide) ha hb, fun scope env henv => ?_⟩
  simp only [Formula.value, hx scope env henv, hy scope env henv, Option.bind_eq_bind, Option.bind_some, if_true,
    Option.some.injEq]
  split <;> omega

end Denotes

section Forms

variable {names : List String} (hnames : ∀ a ∈ names, Name.isIdentifier (variableName a))
include hnames

theorem composes_denotes : Composes names (Denotes names) where
  mono := Denotes.mono
  int := denotes_int
  var ha := denotes_var ha (hnames _ ha)
  neg ha := denotes_neg_var ha (hnames _ ha)
  paren := denotes_paren
  mul := denotes_mul
  add := denotes_add

theorem denotes_limit {h : Header} (hupper : h.upper.Over names) (hclamp : ∀ c, h.clamp = some c → c.Over names) :
    Denotes names 3 (limit h) h.top := by
  have hform := (composes_denotes hnames).ofAffine hupper
  unfold limit
  cases hc : h.clamp with
  | none =>
    have htop : h.top = h.upper.value := funext fun env => by simp only [Header.top, hc]
    rw [htop]
    exact hform
  | some c =>
    have htop : h.top = fun env => min (h.upper.value env) (c.value env) :=
      funext fun env => by simp only [Header.top, hc]
    rw [htop]
    exact (denotes_min hform ((composes_denotes hnames).ofAffine (hclamp c hc))).mono (by decide)

end Forms

end LoopNest.C

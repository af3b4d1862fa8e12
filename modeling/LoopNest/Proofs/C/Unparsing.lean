import LoopNest.Proofs.C.Doubles
import LoopNest.Proofs.C.Formulas
import LoopNest.Proofs.Decimal.Literal

namespace LoopNest

namespace Expr

def constants : Expr → List Float
  | const v => [v]
  | iter _ => []
  | load _ => []
  | binary _ l r => l.constants ++ r.constants
  | neg e => e.constants
  | call _ e => e.constants

def isSigned : Expr → Bool
  | const v => Decimal.isNegative v.toBits.toNat
  | _ => false

/-- No minus sign stands directly in front of another one. -/
def SignsApart : Expr → Prop
  | const _ => True
  | iter _ => True
  | load _ => True
  | binary _ l r => l.SignsApart ∧ r.SignsApart
  | neg e => e.isSigned = false ∧ e.SignsApart
  | call _ e => e.SignsApart

end Expr

namespace C

section Constants

open Decimal (Numeral floating? RoundsTo isNegative)

def Formula.IsConstant (x : Float) : Formula → Prop
  | .number s => ∃ r, floating? s.toList = some r ∧ RoundsTo r x.toBits.toNat
  | .unary .minus (.number s) =>
    ∃ r n, floating? s.toList = some r ∧ RoundsTo r n ∧ x.toBits.toNat = 2 ^ 63 + n
  | _ => False

theorem Formula.IsConstant.unique {x y : Float} {q : Formula} (hx : q.IsConstant x) (hy : q.IsConstant y) : x = y := by
  have hsame (h : x.toBits.toNat = y.toBits.toNat) : x = y := by
    obtain ⟨⟨xbits, hxbits⟩⟩ := x
    obtain ⟨⟨ybits, hybits⟩⟩ := y
    obtain rfl : xbits = ybits := UInt64.toNat_inj.1 h
    rfl
  unfold IsConstant at hx hy
  split at hx
  · obtain ⟨r, hr, hxr⟩ := hx
    obtain ⟨r', hr', hyr⟩ := hy
    obtain rfl : r = r' := Option.some.inj (hr.symm.trans hr')
    exact hsame (hxr.unique hyr)
  · obtain ⟨r, m, hr, hxr, hm⟩ := hx
    obtain ⟨r', n, hr', hyr, hn⟩ := hy
    obtain rfl : r = r' := Option.some.inj (hr.symm.trans hr')
    exact hsame (by rw [hm, hn, hxr.unique hyr])
  · exact absurd hx id

theorem lexFrom_number_append {cs r : List Char} (hr : ∀ c ∈ r, Name.isTail c || c == '.') (t : List Char) :
    lexFrom (.number cs) (r ++ t) = lexFrom (.number (cs ++ r)) t := by
  induction r generalizing cs with
  | nil => rw [List.nil_append, List.append_nil]
  | cons c r ih =>
    obtain ⟨hc, hr⟩ := List.forall_mem_cons.1 hr
    have hstep : Pending.step (.number cs) c = ([], .number (cs ++ [c])) := by
      simp only [Pending.step, Pending.extend, continuesNumber, hc, Bool.true_or, if_true, Option.getD_some]
    rw [List.cons_append, lexFrom, hstep, List.nil_append, ih hr, List.append_assoc, List.singleton_append]

theorem lexFrom_exponent (cs : List Char) (e : Int) :
    lexFrom (.number cs) ('e' :: (toString e).toList) =
      [.number (String.ofList (cs ++ 'e' :: (toString e).toList))] := by
  have hmark : Pending.step (.number cs) 'e' = ([], .number (cs ++ ['e'])) := rfl
  have hdigits : ∀ c ∈ (toString e.natAbs).toList, Name.isTail c := fun c hc => Name.isTail_of_mem_toString hc
  rw [lexFrom, hmark, List.nil_append, Affine.toString_eq, Affine.leadingSign]
  split_ifs
  · have hsign : Pending.step (.number (cs ++ ['e'])) '-' = ([], .number (cs ++ ['e'] ++ ['-'])) := by
      simp [Pending.step, Pending.extend, continuesNumber]
    rw [List.singleton_append, lexFrom, hsign, List.nil_append, lexFrom_number hdigits]
    simp
  · rw [List.nil_append, lexFrom_number hdigits]
    simp

theorem lex_numeral (n : Numeral) : lex n.text = [.number (String.ofList n.text)] := by
  obtain ⟨c, whole, hwhole⟩ := List.exists_cons_of_ne_nil n.whole_ne
  have htail {d : Char} (hd : Decimal.isDigit d) : (Name.isTail d || d == '.') = true := by
    rw [Name.isTail_of_isDigit hd, Bool.true_or]
  obtain ⟨hdigits, hfraction⟩ := List.forall_mem_append.1 n.digits
  rw [hwhole] at hdigits
  obtain ⟨hc, hrest⟩ := List.forall_mem_cons.1 hdigits
  have hplain : ∀ d ∈ whole ++ n.pointed, (Name.isTail d || d == '.') = true := by
    refine List.forall_mem_append.2 ⟨fun d hd => htail (hrest d hd), ?_⟩
    rw [Numeral.pointed]
    split_ifs
    · exact fun d hd => absurd hd List.not_mem_nil
    · exact List.forall_mem_cons.2 ⟨rfl, fun d hd => htail (hfraction d hd)⟩
  have htext : n.text = c :: (whole ++ n.pointed ++ n.marked) := by
    rw [Numeral.text, hwhole, List.cons_append, List.cons_append]
  rw [htext, lex_cons, opening_digit hc, lexFrom_number_append hplain, Numeral.marked]
  cases n.exponent with
  | none => simp [lexFrom, Pending.tokens]
  | some e =>
    rw [lexFrom_exponent]
    simp

theorem head_numeral (n : Numeral) : ∀ d ∈ n.text.head?, isPair '-' d = false := by
  obtain ⟨c, whole, hwhole⟩ := List.exists_cons_of_ne_nil n.whole_ne
  have hc : Decimal.isDigit c := n.digits c (List.mem_append_left _ (hwhole ▸ List.mem_cons_self))
  rw [Numeral.text, hwhole]
  rintro d ⟨⟩
  exact not_isPair_of_isTail (Name.isTail_of_isDigit hc)

theorem lex_decrement (r : List Char) : lex ('-' :: '-' :: r) = .pair '-' '-' :: lex r := rfl

theorem exists_number {x : Float} (h : x.isFinite = true) (hsign : isNegative x.toBits.toNat = false) :
    ∃ s, lex (Expr.double x).text.toList = [.number s] ∧ Formula.IsConstant x (.number s) ∧
      lex (Expr.neg (.double x)).text.toList = [.mark '-', .number s] := by
  obtain ⟨n, htext, hrounds⟩ := Decimal.exists_literal h
  have hbits := Decimal.toBits_eq x
  rw [hsign, if_neg Bool.false_ne_true] at htext hbits
  have hneg : (Expr.neg (.double x)).text.toList = '-' :: n.text := by simp [Expr.text, htext]
  refine ⟨String.ofList n.text, ?_, ⟨n.value, ?_, ?_⟩, ?_⟩
  · rw [Expr.text, htext, lex_numeral]
  · rw [String.toList_ofList, Decimal.floating?_text]
  · rwa [hbits, Nat.zero_add]
  · rw [hneg, lex_sign (head_numeral n), lex_numeral]

theorem exists_signed {x : Float} (h : x.isFinite = true) (hsign : isNegative x.toBits.toNat = true) :
    ∃ s, lex (Expr.double x).text.toList = [.mark '-', .number s] ∧
      Formula.IsConstant x (.unary .minus (.number s)) ∧
      lex (Expr.neg (.double x)).text.toList = [.pair '-' '-', .number s] := by
  obtain ⟨n, htext, hrounds⟩ := Decimal.exists_literal h
  have hbits := Decimal.toBits_eq x
  rw [hsign, if_pos rfl] at htext hbits
  have hneg : (Expr.neg (.double x)).text.toList = '-' :: '-' :: n.text := by simp [Expr.text, htext]
  refine ⟨String.ofList n.text, ?_, ⟨n.value, x.toBits.toNat % 2 ^ 63, ?_, hrounds, ?_⟩, ?_⟩
  · rw [Expr.text, htext, lex_sign (head_numeral n), lex_numeral]
  · rw [String.toList_ofList, Decimal.floating?_text]
  · exact hbits
  · rw [hneg, lex_decrement, lex_numeral]

end Constants

section Meaning

variable (p : Program) (names : List String) (l : Leaf) (c : Computation)

def Formula.operation? : Formula → Option (Operator × Formula × Formula)
  | .binary op x y => (operator? (String.singleton op)).map fun op => (op, x, y)
  | .apply₂ f x y => if f = "fmin" then some (.min, x, y) else if f = "fmax" then some (.max, x, y) else none
  | _ => none

/-- The formula is the expression, with a cast of its value for every iterator and an element of its buffer for every
access. -/
def Means : LoopNest.Expr → Formula → Prop
  | .const v, q => q.IsConstant v
  | .iter name, q => ∃ index, q = .unary (.cast .double) index ∧
      index.Computes names fun env => pointEnv c.iterators (pointOf l env) name
  | .load a, q => ∃ array index, q = .element array index ∧ Addresses p names l c a (array, index)
  | .binary op lhs rhs, q => ∃ x y, q.operation? = some (op, x, y) ∧ Means lhs x ∧ Means rhs y
  | .neg e, q => ∃ x, q = .unary .minus x ∧ Means e x
  | .call f e, q => ∃ x, q = .apply f.name x ∧ Means e x

end Meaning

section Expressions

open Formula (Writes)

variable {p : Program} {names : List String} {l : Leaf} {c : Computation}

variable (hl : l.Scoped p names) (hc : p.computations[l.computation]? = some c)
  (hnames : ∀ a ∈ names, Name.isIdentifier (variableName a)) (hbuffers : ∀ b ∈ p.buffers, Name.isIdentifier b.name)
include hl hc hnames hbuffers

theorem exists_formula {e : LoopNest.Expr} (he : e.WellFormed p.buffers c.iterators)
    (hfinite : ∀ v ∈ e.constants, v.isFinite = true) {e' : Expr} (h : ofExpr p l e = .ok e') :
    ∃ q, Writes e' q ∧ (Means p names l c e q ↔ e.SignsApart) := by
  induction e generalizing e' with
  | const v =>
    cases h
    have hv := hfinite v List.mem_cons_self
    cases hsign : Decimal.isNegative v.toBits.toNat with
    | false =>
      obtain ⟨s, hlex, hconstant, -⟩ := exists_number hv hsign
      exact ⟨_, .number hlex, iff_of_true hconstant trivial⟩
    | true =>
      obtain ⟨s, hlex, hconstant, -⟩ := exists_signed hv hsign
      exact ⟨_, .signed hlex, iff_of_true hconstant trivial⟩
  | iter name =>
    obtain ⟨f, hf, h⟩ := bind_eq_ok.1 h
    cases h
    have hname := Affine.over_var (he.iterators name List.mem_cons_self)
    obtain ⟨index, hwrites, hx⟩ := ((composes_denotes hnames).ofAffine (over_inLoops hl hc hname hf)).formula
    have hvalue : f.value = fun env => pointEnv c.iterators (pointOf l env) name := by
      funext env
      rw [value_inLoops hl hc hname hf, Affine.value_var]
    rw [hvalue] at hx
    exact ⟨_, .cast .double hwrites, iff_of_true ⟨index, rfl, hx⟩ trivial⟩
  | load a =>
    obtain ⟨b, index, hb, rfl, hindex⟩ :=
      (composes_denotes hnames).ofAccess hl hc (he.loads a List.mem_cons_self) h
    obtain ⟨k, hwrites, hx⟩ := hindex.formula
    have hbuffer := isIdentifier_bufferVar (hbuffers b (List.mem_of_getElem? hb))
    exact ⟨_, .element hbuffer (named?_bufferVar _) hwrites, iff_of_true ⟨_, k, rfl, b, hb, rfl, hx⟩ trivial⟩
  | binary op lhs rhs ihl ihr =>
    obtain ⟨hfl, hfr⟩ := List.forall_mem_append.1 hfinite
    obtain ⟨lhs', rhs', hlhs, hrhs, rfl⟩ := bind₂_eq_ok.1 h
    obtain ⟨x, hx, hmeansl⟩ := ihl he.left hfl hlhs
    obtain ⟨y, hy, hmeansr⟩ := ihr he.right hfr hrhs
    have hmeans {q : Formula} (hq : q.operation? = some (op, x, y)) :
        Means p names l c (.binary op lhs rhs) q ↔ lhs.SignsApart ∧ rhs.SignsApart := by
      rw [← hmeansl, ← hmeansr, Means, hq]
      constructor
      · rintro ⟨x', y', hsame, hl, hr⟩
        cases hsame
        exact ⟨hl, hr⟩
      · exact fun h => ⟨x, y, rfl, h⟩
    cases op with
    | min => exact ⟨_, .apply₂ rfl rfl hx hy, hmeans rfl⟩
    | max => exact ⟨_, .apply₂ rfl rfl hx hy, hmeans rfl⟩
    | add => exact ⟨_, .paren (.binary (c := '+') hx hy), hmeans rfl⟩
    | sub => exact ⟨_, .paren (.binary (c := '-') hx hy), hmeans rfl⟩
    | mul => exact ⟨_, .paren (.binary (c := '*') hx hy), hmeans rfl⟩
    | div => exact ⟨_, .paren (.binary (c := '/') hx hy), hmeans rfl⟩
  | neg e ih =>
    obtain ⟨x, hx, h⟩ := bind_eq_ok.1 h
    cases h
    obtain ⟨q, hwrites, hmeans⟩ := ih ⟨he.loads, he.iterators⟩ hfinite hx
    have hminus : Means p names l c (.neg e) (.unary .minus q) ↔ e.SignsApart := by
      rw [← hmeans, Means]
      constructor
      · rintro ⟨x', hsame, h⟩
        cases hsame
        exact h
      · exact fun h => ⟨q, rfl, h⟩
    -- only the sign of a constant can meet the minus sign in front of it
    by_cases hconst : ∃ v, e = .const v
    · obtain ⟨v, rfl⟩ := hconst
      cases hx
      have hv := hfinite v List.mem_cons_self
      cases hsign : Decimal.isNegative v.toBits.toNat with
      | false =>
        obtain ⟨s, -, hconstant, hlex⟩ := exists_number hv hsign
        exact ⟨_, .paren (.signed hlex), iff_of_true ⟨_, rfl, hconstant⟩ ⟨hsign, trivial⟩⟩
      | true =>
        obtain ⟨s, -, -, hlex⟩ := exists_signed hv hsign
        -- two minus signs make a decrement, which no expression of the program is read as
        refine ⟨_, .paren (.decrement hlex), iff_of_false ?_ fun h => ?_⟩
        · rintro ⟨x', hsame, -⟩
          cases hsame
        · exact Bool.false_ne_true (h.1.symm.trans hsign)
    · have hplain : e.isSigned = false := by
        cases e with
        | const v => exact absurd ⟨v, rfl⟩ hconst
        | _ => rfl
      refine ⟨_, .paren (.neg hwrites (head_ofExpr (fun v hv => hconst ⟨v, hv⟩) hx)), hminus.trans ?_⟩
      exact (and_iff_right hplain).symm
  | call f e ih =>
    obtain ⟨x, hx, h⟩ := bind_eq_ok.1 h
    cases h
    obtain ⟨q, hwrites, hmeans⟩ := ih ⟨he.loads, he.iterators⟩ hfinite hx
    have hname : Name.isIdentifier f.name ∧ CType.named? f.name = none := by cases f <;> exact ⟨rfl, rfl⟩
    refine ⟨_, .apply hname.1 hname.2 hwrites, ?_⟩
    rw [Means, LoopNest.Expr.SignsApart, ← hmeans]
    constructor
    · rintro ⟨x', hsame, h⟩
      cases hsame
      exact h
    · exact fun h => ⟨q, rfl, h⟩

end Expressions

theorem exists_read {description : Description} {p : Program} (hp : description.build = .ok p)
    (hnames : p.NamedByIdentifiers) (hbuffers : ∀ b ∈ p.buffers, Name.isIdentifier b.name) {n : Nest}
    (hn : n.Reachable (Context.ofProgram p)) {stack : List Header} {l : Leaf}
    (hl : (stack, l) ∈ Node.leafStacksAll n.roots) {c : Computation}
    (hc : p.computations[l.computation]? = some c) (hfinite : ∀ v ∈ c.expr.constants, v.isFinite = true)
    {value : Expr} (hvalue : ofExpr p l c.expr = .ok value) :
    ∃ q, Formula.read (lex value.text.toList) = some q ∧
      (Means p (scopeOf stack) l c c.expr q ↔ c.expr.SignsApart) := by
  have hwf := Description.wellFormed_of_build hp
  have hwell := (hwf c (List.mem_of_getElem? hc)).expr
  obtain ⟨hscoped, hcounted⟩ := scoped_of_leafStack hp hn hl
  have hvariables : ∀ a ∈ scopeOf stack, Name.isIdentifier (variableName a) := fun a ha =>
    isIdentifier_variableName ((Nest.reshaped_of_reachable hn).dims_identifiers hwf hnames a
      ((Node.dimsAll_sublist_of_stack n.roots hl).subset (List.mem_reverse.1 ha)))
  obtain ⟨q, hwrites, hmeans⟩ := exists_formula hscoped hc hvariables hbuffers hwell hfinite hvalue
  exact ⟨q, Formula.read_text hwrites (grouped_ofExpr hscoped hc hcounted hwell hvalue).1, hmeans⟩

/-- Every right-hand side is one expression, and that of the program if and only if no minus sign stands directly in
front of a constant with a minus sign. -/
theorem read_assigned {description : Description} {p : Program} (hp : description.build = .ok p)
    (hnames : p.NamedByIdentifiers) (hbuffers : ∀ b ∈ p.buffers, Name.isIdentifier b.name)
    (hfinite : ∀ c ∈ p.computations, ∀ v ∈ c.expr.constants, v.isFinite = true) {n : Nest}
    (hn : n.Reachable (Context.ofProgram p)) {stack : List Header} {l : Leaf}
    (hl : (stack, l) ∈ Node.leafStacksAll n.roots) :
    FailsOnlyBy .overflow (assignment p l) ∧ ∀ target value, assignment p l = .ok (.assign target value) →
      ∃ c q, p.computations[l.computation]? = some c ∧ Formula.read (lex value.text.toList) = some q ∧
        (Means p (scopeOf stack) l c c.expr q ↔ c.expr.SignsApart) := by
  obtain ⟨hscoped, -⟩ := scoped_of_leafStack hp hn hl
  refine ⟨ofNode_failsOnly (Description.wellFormed_of_build hp) (.leaf l) hscoped, fun target value hassign => ?_⟩
  obtain ⟨c, hc, -⟩ := hscoped.computation
  obtain ⟨q, hread, hmeans⟩ := exists_read hp hnames hbuffers hn hl hc (hfinite c (List.mem_of_getElem? hc))
    (ofExpr_of_assignment hc hassign)
  exact ⟨c, q, hc, hread, hmeans⟩

theorem read_assigned_consume : ∃ target value c q,
    assignment ProducerConsumer.program ⟨1, [.var "i"]⟩ = .ok (.assign target value) ∧
    value.text = "(b_buf[l_i] + 1.0)" ∧ ProducerConsumer.program.computations[1]? = some c ∧
    Formula.read (lex value.text.toList) = some q ∧
    Means ProducerConsumer.program ["i"] ⟨1, [.var "i"]⟩ c c.expr q := by
  have hfinite : ∀ c ∈ ProducerConsumer.program.computations, ∀ v ∈ c.expr.constants, v.isFinite = true := by
    have hall : ProducerConsumer.program.computations.all (fun c => c.expr.constants.all Float.isFinite) = true := by
      decide +kernel
    exact fun c hc => List.all_eq_true.1 (List.all_eq_true.1 hall c hc)
  have hstack : ([⟨"i", .ofInt 0, .ofInt 2, none, {}⟩], ⟨1, [.var "i"]⟩) ∈
      Node.leafStacksAll (ProducerConsumer.fused {}) := List.mem_cons_of_mem _ List.mem_cons_self
  have hassign : ∃ target value, assignment ProducerConsumer.program ⟨1, [.var "i"]⟩ = .ok (.assign target value) ∧
      value.text = "(b_buf[l_i] + 1.0)" := ⟨_, _, rfl, by decide +kernel⟩
  obtain ⟨target, value, hassign, htext⟩ := hassign
  obtain ⟨c, q, hc, hread, hmeans⟩ := (read_assigned ProducerConsumer.build_eq ProducerConsumer.identifiers
    ProducerConsumer.buffers_identifiers hfinite ProducerConsumer.reachable.2.1 hstack).2 target value hassign
  cases hc
  exact ⟨target, value, _, q, hassign, htext, rfl, hread, hmeans.2 ⟨trivial, trivial⟩⟩

namespace SignedConstant

def description : Description where
  name := "negative"
  params := []
  buffers := [⟨"out", ["1"], .float64, .output⟩]
  computations :=
    [{ name := "c"
       iterators := [⟨"i", "0", "1"⟩]
       store := ⟨"out", ["i"]⟩
       expr := .neg (.const (-1.0)) }]

def computation : Computation where
  name := "c"
  domain := [⟨"i", .ofInt 0, .ofInt 1⟩]
  expr := .neg (.const (-1.0))
  store := ⟨0, [.var "i"]⟩
  after := none

def program : Program where
  name := "negative"
  params := []
  buffers := [⟨"out", [1], .float64, .output⟩]
  computations := [computation]

def leaf : Leaf := ⟨0, [.var "i"]⟩

/-- The two minus signs are one token, and no expression of the program begins with a decrement. -/
theorem minus_minus : description.build = .ok program ∧
    program.nesting = .ok [.loop ⟨"i", .ofInt 0, .ofInt 1, none, {}⟩ [.leaf leaf]] ∧
    program.NamedByIdentifiers ∧ (-1.0 : Float).isFinite = true ∧
    ∃ target value, assignment program leaf = .ok (.assign target value) ∧ value.text = "(--1.0)" ∧
      lex value.text.toList = [.mark '(', .pair '-' '-', .number "1.0", .mark ')'] ∧
      Formula.read (lex value.text.toList) = some (.unary .decrement (.number "1.0")) ∧
      ¬ Means program ["i"] leaf computation computation.expr (.unary .decrement (.number "1.0")) := by
  have hassign : ∃ target value, assignment program leaf = .ok (.assign target value) ∧ value.text = "(--1.0)" :=
    ⟨_, _, rfl, by decide +kernel⟩
  obtain ⟨target, value, hassign, htext⟩ := hassign
  refine ⟨rfl, rfl, ⟨by decide +kernel, by decide +kernel⟩, by decide +kernel, target, value, hassign, htext,
    ?_, ?_, ?_⟩
  · rw [htext]
    decide +kernel
  · rw [htext]
    rfl
  · rintro ⟨q, hq, -⟩
    cases hq

end SignedConstant

end C

end LoopNest

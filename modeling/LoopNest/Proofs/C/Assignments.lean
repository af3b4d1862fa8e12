import LoopNest.Proofs.C.Unparsing

/-!
What the text of a right-hand side stores. A number of digits is an integer, any other is the nearest double, and the
operators, casts and functions are those of the machine, so that the formula that a reader makes of the text has the
value of the emitted expression.
-/

namespace LoopNest.C

open Decimal (floating? RoundsTo isExponentMark isDigit)

variable {F D : Type}

def Machine.NegatesConstants (M : Machine F D) : Prop :=
  ∀ x y : Float, x.toBits.toNat = 2 ^ 63 + y.toBits.toNat → M.double.ofConst x = M.double.neg (M.double.ofConst y)

/-- The machine computes this value for the formula. -/
inductive Formula.Gives (M : Machine F D) (scope : List (String × Int)) (memory : Memory F D) :
    Formula → Value F D → Prop where
  | integer {s : String} {n : Nat} (h : numeral? s = some n) :
      Gives M scope memory (.number s) (.ofInteger (.ofLiteral n) n)
  | floating {s : String} {r : ℚ} {x : Float} (h : floating? s.toList = some r) (hx : RoundsTo r x.toBits.toNat) :
      Gives M scope memory (.number s) (.double (M.double.ofConst x))
  | name {s : String} {n : Int} (h : scope.lookup s = some n) : Gives M scope memory (.name s) (.long n)
  | minus {e : Formula} {v : Value F D} (he : Gives M scope memory e v) :
      Gives M scope memory (.unary .minus e) (v.neg M)
  | cast {e : Formula} {v : Value F D} (he : Gives M scope memory e v) :
      Gives M scope memory (.unary (.cast .double) e) (.double (v.toDouble M))
  | binary {c : Char} {op : Operator} {l r : Formula} {a b v : Value F D}
      (hop : operator? (String.singleton c) = some op) (hl : Gives M scope memory l a)
      (hr : Gives M scope memory r b) (h : a.binary M op b = some v) : Gives M scope memory (.binary c l r) v
  | less {l r : Formula} {a b : Value F D} {m n : Int} (hl : Gives M scope memory l a)
      (hr : Gives M scope memory r b) (hm : a.integer? = some m) (hn : b.integer? = some n) :
      Gives M scope memory (.binary '<' l r) (.int (if m < n then 1 else 0))
  | least {l r : Formula} {a b : Value F D} {m n : Int} (hl : Gives M scope memory l a)
      (hr : Gives M scope memory r b) (hm : a.integer? = some m) (hn : b.integer? = some n) :
      Gives M scope memory (.apply₂ "MIN" l r) (.ofInteger (a.type.common b.type) (if m < n then m else n))
  | apply {f : String} {e : Formula} {v : Value F D} {x : D} (he : Gives M scope memory e v)
      (hf : libraryCall? M f [v.toDouble M] = some x) : Gives M scope memory (.apply f e) (.double x)
  | apply₂ {f : String} {l r : Formula} {a b : Value F D} {x : D} (hl : Gives M scope memory l a)
      (hr : Gives M scope memory r b) (hf : libraryCall? M f [a.toDouble M, b.toDouble M] = some x) :
      Gives M scope memory (.apply₂ f l r) (.double x)
  | element {array : String} {e : Formula} {v w : Value F D} {n : Int} (he : Gives M scope memory e v)
      (hn : v.integer? = some n) (h : memory array n = some w) : Gives M scope memory (.element array e) w

namespace Formula

section Gives

variable {M : Machine F D} {scope : List (String × Int)} {memory : Memory F D}

theorem floating?_of_numeral? {s : String} {n : Nat} (h : numeral? s = some n) : floating? s.toList = none := by
  obtain ⟨hdigits, -⟩ := Option.filter_eq_some_iff.1 h
  rw [Decimal.unsigned?] at hdigits
  split at hdigits
  · cases hdigits
  · next hall =>
    simp only [Bool.or_eq_true, Bool.not_eq_true', not_or, Bool.not_eq_false, List.all_eq_true] at hall
    have hmark : ∀ c ∈ s.toList, (!isExponentMark c) = true := fun c hc => by
      have hdigit := hall.2 c hc
      simp only [isExponentMark, Bool.not_eq_true', Bool.or_eq_false_iff, beq_eq_false_iff_ne]
      exact ⟨Decimal.ne_of_isDigit hdigit rfl, Decimal.ne_of_isDigit hdigit rfl⟩
    have hpoint : ∀ c ∈ s.toList, (c != '.') = true := fun c hc =>
      bne_iff_ne.2 (Decimal.ne_of_isDigit (hall.2 c hc) rfl)
    simp only [floating?, List.takeWhile_eq_self_iff.2 hmark, List.dropWhile_eq_nil_iff.2 hmark,
      List.dropWhile_eq_nil_iff.2 hpoint, List.isEmpty_nil, Bool.and_self, if_true]

theorem operator?_less : operator? (String.singleton '<') = none := by decide

theorem Gives.unique {q : Formula} {v w : Value F D} (hv : q.Gives M scope memory v) (hw : q.Gives M scope memory w) :
    v = w := by
  induction hv generalizing w with
  | integer h =>
    cases hw with
    | integer h' => rw [Option.some.inj (h.symm.trans h')]
    | floating h' => cases (floating?_of_numeral? h).symm.trans h'
  | @floating s r x h hx =>
    cases hw with
    | integer h' => cases (floating?_of_numeral? h').symm.trans h
    | @floating _ r' y h' hy =>
      have hconstant : (Formula.number s).IsConstant x := ⟨r, h, hx⟩
      rw [hconstant.unique ⟨r', h', hy⟩]
  | name h =>
    cases hw with
    | name h' => rw [Option.some.inj (h.symm.trans h')]
  | minus _ ih =>
    cases hw with
    | minus h' => rw [ih h']
  | cast _ ih =>
    cases hw with
    | cast h' => rw [ih h']
  | binary hop _ _ h ihl ihr =>
    cases hw with
    | binary hop' hl' hr' h' =>
      rw [Option.some.inj (hop.symm.trans hop'), ihl hl', ihr hr'] at h
      exact Option.some.inj (h.symm.trans h')
    | less => cases operator?_less.symm.trans hop
  | less _ _ hm hn ihl ihr =>
    cases hw with
    | binary hop' => cases operator?_less.symm.trans hop'
    | less hl' hr' hm' hn' =>
      rw [ihl hl'] at hm
      rw [ihr hr'] at hn
      rw [Option.some.inj (hm.symm.trans hm'), Option.some.inj (hn.symm.trans hn')]
  | least _ _ hm hn ihl ihr =>
    cases hw with
    | least hl' hr' hm' hn' =>
      obtain rfl := ihl hl'
      obtain rfl := ihr hr'
      rw [Option.some.inj (hm.symm.trans hm'), Option.some.inj (hn.symm.trans hn')]
    | apply₂ _ _ hf' => cases hf'
  | apply _ hf ih =>
    cases hw with
    | apply h' hf' =>
      rw [ih h'] at hf
      rw [Option.some.inj (hf.symm.trans hf')]
  | apply₂ _ _ hf ihl ihr =>
    cases hw with
    | least => cases hf
    | apply₂ hl' hr' hf' =>
      rw [ihl hl', ihr hr'] at hf
      rw [Option.some.inj (hf.symm.trans hf')]
  | element _ hn h ih =>
    cases hw with
    | element he' hn' h' =>
      rw [ih he'] at hn
      rw [Option.some.inj (hn.symm.trans hn')] at h
      exact Option.some.inj (h.symm.trans h')

theorem arithmetic?_eq_some {op : Char} {m n r : Int} (h : arithmetic? op m n = some r) :
    (∃ o, operator? (String.singleton op) = some o ∧ integerBinary o m n = some r) ∨
      op = '<' ∧ r = if m < n then 1 else 0 := by
  unfold arithmetic? at h
  by_cases hless : op = '<'
  · subst hless
    exact Or.inr ⟨rfl, (Option.some.inj h).symm⟩
  · simp only [hless, if_false] at h
    split_ifs at h with hmul hadd hsub
    · subst hmul
      exact Or.inl ⟨.mul, rfl, h⟩
    · subst hadd
      exact Or.inl ⟨.add, rfl, h⟩
    · subst hsub
      exact Or.inl ⟨.sub, rfl, h⟩

theorem exists_gives (M : Machine F D) (memory : Memory F D) {q : Formula} {n : Int} (h : q.value scope = some n) :
    ∃ v, q.Gives M scope memory v ∧ v.integer? = some n := by
  induction q generalizing n with
  | number s =>
    obtain ⟨m, hm, rfl⟩ := Option.map_eq_some_iff.1 h
    exact ⟨_, .integer hm, Value.integer?_ofInteger _ _⟩
  | name s => exact ⟨_, .name h, rfl⟩
  | unary op e ih =>
    cases op with
    | decrement | cast => cases h
    | minus =>
      obtain ⟨m, hm, rfl⟩ := Option.map_eq_some_iff.1 h
      obtain ⟨v, hv, hinteger⟩ := ih hm
      refine ⟨_, .minus hv, ?_⟩
      cases v with
      | float | double => cases hinteger
      | int | long =>
        cases hinteger
        rfl
  | binary op l r ihl ihr =>
    obtain ⟨k, hk, hrest⟩ := Option.bind_eq_some_iff.1 h
    obtain ⟨m, hm, hresult⟩ := Option.bind_eq_some_iff.1 hrest
    obtain ⟨a, ha, hka⟩ := ihl hk
    obtain ⟨b, hb, hmb⟩ := ihr hm
    rcases arithmetic?_eq_some hresult with ⟨o, hsymbol, hop⟩ | ⟨rfl, rfl⟩
    · obtain ⟨v, hv, hinteger⟩ := Value.exists_binary_integer M hka hmb hop
      exact ⟨v, .binary hsymbol ha hb hv, hinteger⟩
    · exact ⟨_, .less ha hb hka hmb, rfl⟩
  | apply f e => cases h
  | apply₂ f l r ihl ihr =>
    obtain ⟨k, hk, hrest⟩ := Option.bind_eq_some_iff.1 h
    obtain ⟨m, hm, hresult⟩ := Option.bind_eq_some_iff.1 hrest
    obtain ⟨a, ha, hka⟩ := ihl hk
    obtain ⟨b, hb, hmb⟩ := ihr hm
    by_cases hf : f = "MIN"
    · rw [if_pos hf] at hresult
      subst hf
      exact ⟨_, .least ha hb hka hmb, (Value.integer?_ofInteger _ _).trans hresult⟩
    · rw [if_neg hf] at hresult
      cases hresult
  | element array e => cases h

theorem IsConstant.gives (hsign : M.NegatesConstants) {x : Float} {q : Formula} (h : q.IsConstant x) :
    q.Gives M scope memory (.double (M.double.ofConst x)) := by
  unfold IsConstant at h
  split at h
  · obtain ⟨r, hr, hx⟩ := h
    exact .floating hr hx
  · obtain ⟨r, n, hr, hn, hx⟩ := h
    -- the number stands for the double without the sign
    obtain ⟨y, rfl⟩ := Decimal.exists_toBits hn.1
    rw [hsign x y hx]
    exact .minus (.floating hr hn)
  · exact absurd h id

theorem Gives.operation {q x y : Formula} {op : Operator} {a b v : Value F D} (hx : x.Gives M scope memory a)
    (hq : q.operation? = some (op, x, y)) (hy : y.Gives M scope memory b)
    (hfunction : op = .min ∨ op = .max → v = .double (M.double.binary op (a.toDouble M) (b.toDouble M)))
    (hoperator : ¬ (op = .min ∨ op = .max) → a.binary M op b = some v) : q.Gives M scope memory v := by
  unfold operation? at hq
  split at hq
  · next c l r =>
    obtain ⟨op', hop, hsame⟩ := Option.map_eq_some_iff.1 hq
    cases hsame
    have hnot : ¬ (op = .min ∨ op = .max) := by
      have hmem := List.mem_of_find?_eq_some hop
      rintro (rfl | rfl) <;> simp at hmem
    exact .binary hop hx hy (hoperator hnot)
  · next f l r =>
    split_ifs at hq with hmin hmax
    · cases hq
      rw [hfunction (Or.inl rfl), hmin]
      exact .apply₂ hx hy rfl
    · cases hq
      rw [hfunction (Or.inr rfl), hmax]
      exact .apply₂ hx hy rfl
  · cases hq

end Gives

end Formula

section Means

variable {p : Program} {l : Leaf} {c : Computation} {names : List String} {M : Machine F D}
  {scope : List (String × Int)} {memory : Memory F D}

theorem gives_of_means (hl : l.Scoped p names) (hc : p.computations[l.computation]? = some c)
    (hsign : M.NegatesConstants) {env : Valuation} (hscope : Binds scope names env) {e : LoopNest.Expr}
    (he : e.WellFormed p.buffers c.iterators) {e' : Expr} (h : ofExpr p l e = .ok e') {q : Formula}
    (hq : Means p names l c e q) {v : Value F D} (hv : e'.eval M scope memory = some v) :
    q.Gives M scope memory v := by
  induction e generalizing e' q v with
  | const x =>
    cases h
    cases hv
    exact hq.gives hsign
  | iter name =>
    obtain ⟨f, hf, h⟩ := bind_eq_ok.1 h
    cases h
    obtain ⟨index, rfl, hindex⟩ := hq
    have hname := Affine.over_var (he.iterators name List.mem_cons_self)
    have hform := (composes_yields M memory names).ofAffine (over_inLoops hl hc hname hf)
    obtain ⟨a, ha, hinteger⟩ := hform scope env hscope
    rw [value_inLoops hl hc hname hf, Affine.value_var] at hinteger
    cases (Expr.eval_cast ha).symm.trans hv
    -- integers that are equal are cast to the same double
    obtain ⟨b, hb, hsame⟩ := Formula.exists_gives M memory (hindex scope env hscope)
    rw [Value.toDouble_of_integer? hinteger, ← Value.toDouble_of_integer? hsame]
    exact .cast hb
  | load a =>
    obtain ⟨array, index, rfl, b, hb, hname, hindex⟩ := hq
    obtain ⟨b', index', hb', rfl, hyields⟩ :=
      (composes_yields M memory names).ofAccess hl hc (he.loads a List.mem_cons_self) h
    cases hb.symm.trans hb'
    obtain ⟨w, hw, hinteger⟩ := hyields scope env hscope
    rw [Expr.eval_subscript hw hinteger] at hv
    obtain ⟨x, hx, hsame⟩ := Formula.exists_gives M memory (hindex scope env hscope)
    rw [← hname] at hv
    exact .element hx hsame hv
  | binary op lhs rhs ihl ihr =>
    obtain ⟨x, y, hoperation, hmeansl, hmeansr⟩ := hq
    obtain ⟨lhs', rhs', hl', hr', ⟨hop, f, rfl, hcall⟩ | ⟨hop, -, -, hsymbol, rfl⟩⟩ := ofExpr_binary_eq_ok h
    · obtain ⟨xs, x, hxs, hx, rfl⟩ := Expr.exists_of_eval_call hv
      obtain ⟨a, ys, ha, hys, rfl⟩ := Expr.exists_of_evalAll_cons hxs
      obtain ⟨b, zs, hb, hzs, rfl⟩ := Expr.exists_of_evalAll_cons hys
      cases hzs
      rw [hcall] at hx
      cases hx
      exact (ihl he.left hl' hmeansl ha).operation hoperation (ihr he.right hr' hmeansr hb) (fun _ => rfl)
        fun hnot => absurd hop hnot
    · obtain ⟨op', a, b, hop', ha, hb, hv⟩ := Expr.exists_of_eval_binary hv
      cases hsymbol.symm.trans hop'
      exact (ihl he.left hl' hmeansl ha).operation hoperation (ihr he.right hr' hmeansr hb)
        (fun hfunction => absurd hfunction hop) fun _ => hv
  | neg e ih =>
    obtain ⟨x, rfl, hmeans⟩ := hq
    obtain ⟨e'', he', h⟩ := bind_eq_ok.1 h
    cases h
    obtain ⟨w, hw, rfl⟩ := Option.map_eq_some_iff.1 hv
    exact .minus (ih ⟨he.loads, he.iterators⟩ he' hmeans hw)
  | call f e ih =>
    obtain ⟨x, rfl, hmeans⟩ := hq
    obtain ⟨e'', he', h⟩ := bind_eq_ok.1 h
    cases h
    obtain ⟨xs, y, hxs, hy, rfl⟩ := Expr.exists_of_eval_call hv
    obtain ⟨w, ys, hw, hys, rfl⟩ := Expr.exists_of_evalAll_cons hxs
    cases hys
    exact .apply (ih ⟨he.loads, he.iterators⟩ he' hmeans hw) hy

end Means

section Statements

variable {p : Program} {l : Leaf} {c : Computation} {names : List String}

def Holds (p : Program) (M : Machine F D) (memory : Memory F D) (env : Env) (place : Place) (x : D) : Prop :=
  ∃ b o v, p.buffers[place.buffer]? = some b ∧ place.offset env = .ok (some o) ∧
    memory (bufferVar b.name) o = some v ∧ v.toDouble M = x

theorem supplies_of_holds {M : Machine F D} {memory : Memory F D} {env : Env} {scope : Numbering.Scope}
    (hlength : scope.length = env.length) {st : LoopNest.Statement} (hst : Numbering.FromLeaf p scope l st c)
    (he : c.expr.WellFormed p.buffers c.iterators) {loaded : Array D}
    (hloaded : List.Forall₂ (Holds p M memory env) st.reads loaded.toList) :
    Supplies p c l M memory (Numbering.valuation scope env) (fun n => loaded.getD n M.double.zero) 0 c.expr.loads := by
  intro i a b ha hb
  have hplaces := Numbering.locations_expr hst.value
  obtain ⟨hi, rfl⟩ := List.getElem?_eq_some_iff.1 ha
  have hread : i < st.reads.length := hplaces.length_eq ▸ hi
  have hload : i < loaded.toList.length := hloaded.length_eq ▸ hread
  have hplace := hplaces.get hi hread
  obtain ⟨b', o, v, hb', ho, hv, hx⟩ := hloaded.get hread hload
  rw [buffer_place hplace] at hb'
  cases hb.symm.trans hb'
  refine ⟨v, ?_, ?_⟩
  · rw [flatIndex_eq_offset (Numbering.values_of_forms hlength hst.iterators) (he.loads _ (List.getElem_mem hi))
      hplace hb ho, hv]
  · rw [hx]
    simp [Array.getD, show i < loaded.size from hload]

/-- The right-hand side of an assignment groups as it is put together, and each operator and function is computed in
the type that its place in the program gives it. Where that is double throughout, the right-hand side gives what the
interpreter stores, from the same values of the loops and the elements. With identifiers as names, finite constants
and no minus sign in front of another one, its text is read as a formula that gives what the right-hand side does. -/
theorem assigned_value {description : Description} (hp : description.build = .ok p) {n : Nest}
    (hn : n.Reachable (Context.ofProgram p)) {stack : List Header} (hl : (stack, l) ∈ Node.leafStacksAll n.roots) :
    FailsOnlyBy .overflow (assignment p l) ∧ ∀ target value, assignment p l = .ok (.assign target value) →
      ∃ c, p.computations[l.computation]? = some c ∧ value.Grouped ∧
        value.computedIn (declared? p) = c.expr.computedIn p ∧
        ((∀ t ∈ c.expr.computedIn p, t = some .double) →
          ∀ st, Numbering.statement p (scopeOf stack) l = .ok st →
          ∀ {F D : Type} (M : Machine F D) (memory : Memory F D), memory.Respects (declared? p) →
          ∀ (env : Env), env.length = stack.length →
          ∀ loaded : Array D, List.Forall₂ (Holds p M memory env) st.reads loaded.toList →
          ∀ x, st.value.eval M.double loaded env = .ok x →
            ∃ v, value.eval M (frames (scopeOf stack) env) memory = some v ∧ v.toDouble M = x) ∧
        (p.NamedByIdentifiers → (∀ b ∈ p.buffers, Name.isIdentifier b.name) →
          (∀ x ∈ c.expr.constants, x.isFinite = true) → c.expr.SignsApart →
          ∃ q, Formula.read (lex value.text.toList) = some q ∧
            ∀ {F D : Type} (M : Machine F D), M.NegatesConstants → ∀ (memory : Memory F D) (env : Env),
            env.length = stack.length → ∀ v, value.eval M (frames (scopeOf stack) env) memory = some v →
            ∀ w, q.Gives M (frames (scopeOf stack) env) memory w ↔ w = v) := by
  have hwf := Description.wellFormed_of_build hp
  obtain ⟨hscoped, hcounted⟩ := scoped_of_leafStack hp hn hl
  refine ⟨ofNode_failsOnly hwf (.leaf l) hscoped, fun target value hassign => ?_⟩
  obtain ⟨c, hc, -⟩ := hscoped.computation
  have hwell := (hwf c (List.mem_of_getElem? hc)).expr
  have hvalue := ofExpr_of_assignment hc hassign
  have hcomputed := computedIn_ofExpr (Description.nodup_bufferNames_of_build hp) hvalue
  have hgrouped := (grouped_ofExpr hscoped hc hcounted hwell hvalue).1
  have hlength (env : Env) (henv : env.length = stack.length) : (scopeOf stack).length = env.length := by
    simp [scopeOf, henv]
  refine ⟨c, hc, hgrouped, hcomputed, ?_, ?_⟩
  · intro hdoubles st hst F D M memory hmemory env henv loaded hloaded x hx
    obtain ⟨c', hleaf⟩ := Numbering.fromLeaf_of_statement hst
    cases hc.symm.trans hleaf.computation
    -- the reads of the statement are the loads of the expression in their order
    obtain ⟨v, hv, hresult⟩ := eval_ofExpr hscoped hc hmemory (binds_frames (hlength env henv)) hwell hvalue
      (by rwa [hcomputed]) (supplies_of_holds (hlength env henv) hleaf hwell hloaded)
    refine ⟨v, hv, hresult.trans ?_⟩
    rw [Numbering.value_expr hleaf.value hx, Numbering.Bindings.valueOf_zip,
      Numbering.values_of_forms (hlength env henv) hleaf.iterators]
    rfl
  · intro hnames hbuffers hfinite hsigns
    obtain ⟨q, hread, hmeans⟩ := exists_read hp hnames hbuffers hn hl hc hfinite hvalue
    refine ⟨q, hread, fun M hnegates memory env henv v hv w => ?_⟩
    have hgives := gives_of_means hscoped hc hnegates (binds_frames (hlength env henv)) hwell hvalue
      (hmeans.2 hsigns) hv
    exact ⟨fun hw => hw.unique hgives, fun hw => hw ▸ hgives⟩

end Statements

namespace Rational

def machine : Machine Rat Rat where
  float := Arithmetic.fractions.binary
  negFloat x := -x
  floatOfInt n := n
  widen x := x
  double := .fractions

def memory (array : String) (x : Rat) : Memory Rat Rat := fun a _ => if a = array then some (.double x) else none

end Rational

theorem assigned_value_consume : ∃ target value st v q,
    assignment ProducerConsumer.program ⟨1, [.var "i"]⟩ = .ok (.assign target value) ∧ value.Grouped ∧
    Numbering.statement ProducerConsumer.program ["i"] ⟨1, [.var "i"]⟩ = .ok st ∧
    st.value.eval Rational.machine.double #[3] [1] = .ok (3 + 1) ∧
    value.eval Rational.machine [("l_i", 1)] (Rational.memory "b_buf" 3) = some v ∧
    v.toDouble Rational.machine = 3 + 1 ∧ value.text = "(b_buf[l_i] + 1.0)" ∧
    Formula.read (lex value.text.toList) = some q ∧
    ∀ w, q.Gives Rational.machine [("l_i", 1)] (Rational.memory "b_buf" 3) w ↔ w = v := by
  have hassign : ∃ target value, assignment ProducerConsumer.program ⟨1, [.var "i"]⟩ = .ok (.assign target value) ∧
      value.text = "(b_buf[l_i] + 1.0)" := ⟨_, _, rfl, by decide +kernel⟩
  have hst : ∃ st, Numbering.statement ProducerConsumer.program ["i"] ⟨1, [.var "i"]⟩ = .ok st ∧
      st.value.eval Rational.machine.double #[3] [1] = .ok (3 + Arithmetic.fractions.ofConst 1.0) ∧
      List.Forall₂ (Holds ProducerConsumer.program Rational.machine (Rational.memory "b_buf" 3) [1]) st.reads [3] :=
    ⟨_, rfl, rfl, .cons ⟨_, 1, .double 3, rfl, rfl, rfl, rfl⟩ .nil⟩
  have hrespects : (Rational.memory "b_buf" 3).Respects (declared? ProducerConsumer.program) := by
    intro array n v h
    simp only [Rational.memory] at h
    split at h
    · next harray =>
      cases h
      rw [harray]
      rfl
    · cases h
  have hstack : ([⟨"i", .ofInt 0, .ofInt 2, none, {}⟩], ⟨1, [.var "i"]⟩) ∈
      Node.leafStacksAll (ProducerConsumer.fused {}) := List.mem_cons_of_mem _ List.mem_cons_self
  have hfloats : ∀ b ∈ ProducerConsumer.program.buffers, b.dtype = .float64 := by
    simp [ProducerConsumer.program]
  obtain ⟨target, value, hassign, htext⟩ := hassign
  obtain ⟨st, hst, hx, hloaded⟩ := hst
  rw [Arithmetic.ofConst_fractions.2.1] at hx
  obtain ⟨c, hc, hgrouped, -, hvalue, hread⟩ := (assigned_value ProducerConsumer.build_eq
    ProducerConsumer.reachable.2.1 hstack).2 target value hassign
  have hwell := Description.wellFormed_of_build ProducerConsumer.build_eq c (List.mem_of_getElem? hc)
  obtain ⟨v, hv, hresult⟩ := hvalue (computedIn_of_float64 hfloats hwell.expr).2 st hst Rational.machine
    (Rational.memory "b_buf" 3) hrespects [1] rfl #[3] hloaded _ hx
  cases hc
  obtain ⟨q, hq, hgives⟩ := hread ProducerConsumer.identifiers ProducerConsumer.buffers_identifiers
    (List.forall_mem_singleton.2 (by decide +kernel)) ⟨trivial, trivial⟩
  exact ⟨target, value, st, v, q, hassign, hgrouped, hst, hx, hv, hresult, htext, hq,
    hgives Rational.machine (fun _ _ => Arithmetic.ofConst_negative) (Rational.memory "b_buf" 3) [1] rfl v hv⟩

namespace Quotient

def description : Description where
  name := "quotient"
  params := []
  buffers := [⟨"a", ["1"], .int32, .input⟩, ⟨"b", ["1"], .int32, .input⟩, ⟨"out", ["1"], .float64, .output⟩]
  computations :=
    [{ name := "c"
       iterators := [⟨"i", "0", "1"⟩]
       store := ⟨"out", ["i"]⟩
       expr := .binary "/" (.load ⟨"a", ["i"]⟩) (.load ⟨"b", ["i"]⟩) }]

def computation : Computation where
  name := "c"
  domain := [⟨"i", .ofInt 0, .ofInt 1⟩]
  expr := .binary .div (.load ⟨0, [.var "i"]⟩) (.load ⟨1, [.var "i"]⟩)
  store := ⟨2, [.var "i"]⟩
  after := none

def program : Program where
  name := "quotient"
  params := []
  buffers := [⟨"a", [1], .int32, .input⟩, ⟨"b", [1], .int32, .input⟩, ⟨"out", [1], .float64, .output⟩]
  computations := [computation]

def leaf : Leaf := ⟨0, [.var "i"]⟩

def memory : Memory Rat Rat := fun array _ =>
  if array = "b_a" then some (.int 1) else if array = "b_b" then some (.int 2) else none

/-- The interpreter stores one half, and the emitted right-hand side is zero. -/
theorem value_truncated : description.build = .ok program ∧
    program.nesting = .ok [.loop ⟨"i", .ofInt 0, .ofInt 1, none, {}⟩ [.leaf leaf]] ∧
    (∀ t ∈ computation.expr.computedIn program, t = some .int) ∧
    ∃ target value st, assignment program leaf = .ok (.assign target value) ∧
      Numbering.statement program ["i"] leaf = .ok st ∧
      List.Forall₂ (Holds program Rational.machine memory [0]) st.reads [1, 2] ∧
      st.value.eval Rational.machine.double #[1, 2] [0] = .ok (1 / 2) ∧
      value.eval Rational.machine [("l_i", 0)] memory = some (.int 0) :=
  ⟨rfl, rfl, List.forall_mem_singleton.2 rfl, _, _, _, rfl, rfl,
    .cons ⟨_, 0, .int 1, rfl, rfl, rfl, rfl⟩ (.cons ⟨_, 0, .int 2, rfl, rfl, rfl, rfl⟩ .nil), rfl, rfl⟩

end Quotient

end C

end LoopNest

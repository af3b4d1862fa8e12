import LoopNest.Proofs.C.Code
import LoopNest.Proofs.C.Lines
import LoopNest.Proofs.C.Values
import LoopNest.Proofs.Kernel.Meaning

namespace LoopNest.C

variable {p : Program} {names : List String} {l : Leaf} {c : Computation}

def pointOf (l : Leaf) (env : Valuation) : List Int := l.bindings.map fun f => f.value env

def flatIndex (c : Computation) (l : Leaf) (b : Buffer) (a : Access) (env : Valuation) : Int :=
  total ((a.indices.zip b.strides).map fun i => i.1.value (pointEnv c.iterators (pointOf l env)) * (i.2 : Int))

def Addresses (p : Program) (names : List String) (l : Leaf) (c : Computation) (a : Access)
    (subscript : String × Formula) : Prop :=
  ∃ b, p.buffers[a.buffer]? = some b ∧ subscript.1 = bufferVar b.name ∧ subscript.2.Computes names (flatIndex c l b a)

section Indices

variable (hl : l.Scoped p names) (hc : p.computations[l.computation]? = some c)
include hl hc

theorem exists_binding {a : String} (ha : a ∈ c.iterators) :
    ∃ b ∈ l.bindings, (c.iterators.zip l.bindings).find? (fun b => b.1 == a) = some (a, b) := by
  obtain ⟨c', hc', hlength⟩ := hl.computation
  cases hc.symm.trans hc'
  have hkeys : (c.iterators.zip l.bindings).map Prod.fst = c.iterators := List.map_fst_zip (Nat.le_of_eq hlength.symm)
  rw [← hkeys] at ha
  obtain ⟨v, hv, rfl⟩ := List.mem_map.1 ha
  have hsome : ((c.iterators.zip l.bindings).find? fun b => b.1 == v.1).isSome :=
    List.find?_isSome.2 ⟨v, hv, beq_self_eq_true v.1⟩
  obtain ⟨w, hw⟩ := Option.isSome_iff_exists.1 hsome
  have hname := List.find?_some hw
  exact ⟨w.2, (List.of_mem_zip (List.mem_of_find?_eq_some hw)).2, by rw [hw, ← eq_of_beq hname]⟩

theorem over_inLoops {f g : Affine} (hf : f.Over c.iterators) (h : l.inLoops p f = .ok g) : g.Over names := by
  simp only [Leaf.inLoops, hc] at h
  refine Affine.over_bindVars (fun a ha => ?_) h
  obtain ⟨b, hb, hfind⟩ := exists_binding hl hc (hf a ha)
  rw [hfind]
  exact hl.inScope b hb

theorem value_inLoops {f g : Affine} (hf : f.Over c.iterators) (h : l.inLoops p f = .ok g) (env : Valuation) :
    g.value env = f.value (pointEnv c.iterators (pointOf l env)) := by
  simp only [Leaf.inLoops, hc] at h
  rw [Affine.value_bindVars env h]
  refine Affine.value_congr hf fun a ha => ?_
  obtain ⟨b, hb, hfind⟩ := exists_binding hl hc ha
  simp only [pointEnv, pointOf, List.zip_map_right, List.find?_map, Function.comp_def, Prod.map, id_eq, hfind,
    Option.map_some]

theorem Composes.indexParts {P : Nat → Expr → (Valuation → Int) → Prop} (hP : Composes names P) {fs : List Affine}
    (hfs : ∀ f ∈ fs, f.Over c.iterators) {strides : List Nat} {parts : List Expr}
    (h : indexParts p l fs strides = .ok parts) :
    List.Forall₂ (P 3) parts ((fs.zip strides).map fun i env =>
      i.1.value (pointEnv c.iterators (pointOf l env)) * (i.2 : Int)) := by
  induction fs generalizing strides parts with
  | nil =>
    cases h
    exact .nil
  | cons f fs ih =>
    cases strides with
    | nil =>
      cases h
      exact .nil
    | cons stride strides =>
      obtain ⟨hf, hfs⟩ := List.forall_mem_cons.1 hfs
      obtain ⟨g, rest, hg, hrest, rfl⟩ := bind₂_eq_ok.1 h
      have hvalue : g.value = fun env => f.value (pointEnv c.iterators (pointOf l env)) :=
        funext fun env => value_inLoops hl hc hf hg env
      have hpart := hP.scaled (over_inLoops hl hc hf hg) stride
      rw [hvalue] at hpart
      exact .cons hpart (ih hfs hrest)

theorem Composes.ofAccess {P : Nat → Expr → (Valuation → Int) → Prop} (hP : Composes names P) {a : Access}
    (ha : a.WellFormed p.buffers c.iterators) {e : Expr} (h : ofAccess p l a = .ok e) :
    ∃ b index, p.buffers[a.buffer]? = some b ∧ e = .subscript (bufferVar b.name) index ∧
      P 2 index (flatIndex c l b a) := by
  obtain ⟨b, hb, -⟩ := ha.buffer
  simp only [C.ofAccess, hb] at h
  obtain ⟨parts, hparts, h⟩ := bind_eq_ok.1 h
  cases h
  have hsum := hP.sum (hP.indexParts hl hc ha.inScope hparts)
  simp only [List.map_map] at hsum
  exact ⟨b, _, hb, rfl, hsum⟩

variable (hnames : ∀ a ∈ names, Name.isIdentifier (variableName a))
include hnames

theorem exists_subscript {a : Access} (ha : a.WellFormed p.buffers c.iterators) {e : Expr}
    (h : ofAccess p l a = .ok e) :
    ∃ (b : Buffer) (index : Expr) (q : Formula), e = .subscript (bufferVar b.name) index ∧ b ∈ p.buffers ∧
      index.Plain ∧ Formula.read (lex index.text.toList) = some q ∧
      Addresses p names l c a (bufferVar b.name, q) := by
  obtain ⟨b, index, hb, rfl, hindex⟩ := (composes_denotes hnames).ofAccess hl hc ha h
  obtain ⟨q, hread, hcomputes⟩ := hindex.read
  exact ⟨b, index, q, rfl, List.mem_of_getElem? hb, hindex.plain, hread, b, hb, rfl, hcomputes⟩

end Indices

section Values

structure Brings (cs : List Char) (subscripts : List (String × Formula)) : Prop where
  inline : Inline cs
  scans : Scans (lex cs) subscripts

theorem not_isBracket_of_chars {cs : List Char} (hopen : '[' ∉ cs) (hclose : ']' ∉ cs) :
    ∀ t ∈ lex cs, isBracket t = false := by
  intro t ht
  simp only [isBracket, Bool.or_eq_false_iff, beq_eq_false_iff_ne]
  constructor
  · rintro rfl
    exact hopen (mark_mem_lex ht)
  · rintro rfl
    exact hclose (mark_mem_lex ht)

theorem brings_numeric {cs : List Char} (h : ∀ c ∈ cs, isNumeric c) : Brings cs [] := by
  have hnot {d : Char} (hd : isNumeric d = false) : d ∉ cs := fun hmem => by simp [h d hmem] at hd
  refine ⟨fun c hc => ?_, scans_plain (not_isBracket_of_chars (hnot rfl) (hnot rfl))⟩
  have hnumeric := h c hc
  simp only [isNumeric, Bool.or_eq_true, beq_iff_eq] at hnumeric
  rcases hnumeric with (htail | rfl) | rfl
  · exact isInline_of_isTail htail
  · rfl
  · rfl

theorem Expr.Plain.not_isBracket {e : Expr} (h : e.Plain) : ∀ t ∈ lex e.text.toList, isBracket t = false := by
  have hnot {d : Char} (hd : isPlain d = false) : d ∉ e.text.toList := fun hmem => by simp [h d hmem] at hd
  exact not_isBracket_of_chars (hnot rfl) (hnot rfl)

theorem Expr.Plain.brings {e : Expr} (h : e.Plain) : Brings e.text.toList [] :=
  ⟨h.inline, scans_plain h.not_isBracket⟩

section Operators

variable {l r e : Expr} {as bs : List (String × Formula)}

theorem scans_mark {c : Char} (hc : isBracket (.mark c) = false) {ts : List Token} (h : Scans ts as) :
    Scans (.mark c :: ts) as := (scans_token hc).append h

theorem Scans.mark {ts : List Token} (h : Scans ts as) {c : Char} (hc : isBracket (.mark c) = false) :
    Scans (ts ++ [.mark c]) as := by
  simpa using h.append (scans_token hc)

theorem Brings.binary {c : Char} (hl : Brings l.text.toList as) (hr : Brings r.text.toList bs) (hc : c ∈ infixMarks) :
    Brings (Expr.binary (String.singleton c) l r).text.toList (as ++ bs) := by
  have hmarks : infixMarks.all (fun c => isInline c && !isBracket (.mark c)) = true := rfl
  have hmark := List.all_eq_true.1 hmarks c hc
  simp only [Bool.and_eq_true, Bool.not_eq_true'] at hmark
  have hspace : isInline ' ' := rfl
  constructor
  · simp [Expr.text, hl.inline, hr.inline, hmark.1, hspace]
  · rw [lex_binary hc]
    exact hl.scans.append (scans_mark hmark.2 hr.scans)

theorem Brings.paren (h : Brings e.text.toList as) : Brings (Expr.paren e).text.toList as := by
  have hparens : isInline '(' ∧ isInline ')' := ⟨rfl, rfl⟩
  constructor
  · simp [Expr.text, h.inline, hparens]
  · rw [lex_paren]
    exact scans_mark rfl (h.scans.mark rfl)

theorem Brings.apply {f : String} (hf : Name.isIdentifier f) (h : Brings e.text.toList as) :
    Brings (Expr.call f [e]).text.toList as := by
  have hparens : isInline '(' ∧ isInline ')' := ⟨rfl, rfl⟩
  have htext : (Expr.call f [e]).text.toList = f.toList ++ (Expr.paren e).text.toList := by
    simp [Expr.text, Expr.textAll]
  have hopen : (Expr.paren e).text.toList = '(' :: (e.text.toList ++ [')']) := by simp [Expr.text]
  rw [htext]
  constructor
  · exact inline_append.2 ⟨inline_identifier hf, h.paren.inline⟩
  · rw [lex_identifier_append hf (hopen ▸ stop_cons rfl)]
    exact (scans_token rfl).append h.paren.scans

theorem Brings.apply₂ {f : String} (hf : Name.isIdentifier f) (hl : Brings l.text.toList as)
    (hr : Brings r.text.toList bs) : Brings (Expr.call f [l, r]).text.toList (as ++ bs) := by
  have hmarks : isInline '(' ∧ isInline ',' ∧ isInline ' ' ∧ isInline ')' := ⟨rfl, rfl, rfl, rfl⟩
  constructor
  · simp [Expr.text, Expr.textAll, hl.inline, hr.inline, inline_identifier hf, hmarks]
  · rw [lex_call hf]
    exact (scans_token rfl).append (scans_mark rfl (hl.scans.append (scans_mark rfl (hr.scans.mark rfl))))

theorem Brings.cast {t : String} (ht : Name.isIdentifier t) (h : Brings e.text.toList as) :
    Brings (Expr.cast t e).text.toList as := by
  have hparens : isInline '(' ∧ isInline ')' := ⟨rfl, rfl⟩
  have htext : (Expr.cast t e).text.toList = '(' :: (t.toList ++ ')' :: e.text.toList) := by simp [Expr.text]
  constructor
  · simp [Expr.text, h.inline, inline_identifier ht, hparens]
  · rw [htext, lex_open, lex_append_cut rfl, lex_identifier ht, lex_close]
    exact scans_mark rfl ((scans_token rfl).append (scans_mark rfl h.scans))

theorem Brings.neg (h : Brings e.text.toList as) (hhead : ∀ d ∈ e.text.toList.head?, isPair '-' d = false) :
    Brings (Expr.neg e).text.toList as := by
  have hsign : isInline '-' := rfl
  have htext : (Expr.neg e).text.toList = '-' :: e.text.toList := by simp [Expr.text]
  constructor
  · simp [Expr.text, h.inline, hsign]
  · rw [htext, lex_sign hhead]
    exact scans_mark rfl h.scans

theorem brings_subscript {array : String} (harray : Name.isIdentifier array) {q : Formula} (hplain : e.Plain)
    (h : Formula.read (lex e.text.toList) = some q) : Brings (Expr.subscript array e).text.toList [(array, q)] := by
  have hbrackets : isInline '[' ∧ isInline ']' := ⟨rfl, rfl⟩
  constructor
  · simp [Expr.text, hplain.inline, inline_identifier harray, hbrackets]
  · rw [lex_subscript harray]
    exact scans_subscript array hplain.not_isBracket h

end Operators

end Values

theorem isIdentifier_variableName {a : String} (h : Name.isIdentifier a) : Name.isIdentifier (variableName a) :=
  (Name.extends_append (Name.isTail_of_mem h)).isIdentifier rfl

theorem isIdentifier_bufferVar {a : String} (h : Name.isIdentifier a) : Name.isIdentifier (bufferVar a) :=
  (Name.extends_append (Name.isTail_of_mem h)).isIdentifier rfl

theorem head_ofExpr {e : LoopNest.Expr} (hconst : ∀ v, e ≠ .const v) {e' : Expr} (h : ofExpr p l e = .ok e') :
    ∀ d ∈ e'.text.toList.head?, isPair '-' d = false := by
  cases e with
  | const v => exact absurd rfl (hconst v)
  | iter name =>
    obtain ⟨f, -, h⟩ := bind_eq_ok.1 h
    cases h
    simp [Expr.text, isPair]
  | load a =>
    rw [ofExpr, ofAccess] at h
    split at h
    · cases h
    · obtain ⟨parts, -, h⟩ := bind_eq_ok.1 h
      cases h
      simp [Expr.text, bufferVar, isPair]
  | binary op lhs rhs =>
    obtain ⟨lhs', rhs', -, -, rfl⟩ := bind₂_eq_ok.1 h
    cases op <;> simp [Expr.text, isPair]
  | neg e =>
    obtain ⟨e', -, h⟩ := bind_eq_ok.1 h
    cases h
    simp [Expr.text, isPair]
  | call f e =>
    obtain ⟨e', -, h⟩ := bind_eq_ok.1 h
    cases h
    cases f <;> simp [Expr.text, Intrinsic.name, isPair]

section Expressions

variable (hl : l.Scoped p names) (hc : p.computations[l.computation]? = some c)
  (hnames : ∀ a ∈ names, Name.isIdentifier (variableName a)) (hbuffers : ∀ b ∈ p.buffers, Name.isIdentifier b.name)
include hl hc hnames hbuffers

theorem exists_brings_access {a : Access} (ha : a.WellFormed p.buffers c.iterators) {e : Expr}
    (h : ofAccess p l a = .ok e) : ∃ (b : Buffer) (index : Expr) (x : String × Formula),
      e = .subscript (bufferVar b.name) index ∧ b ∈ p.buffers ∧ Brings e.text.toList [x] ∧
        Addresses p names l c a x := by
  obtain ⟨b, index, q, rfl, hb, hplain, hread, haddresses⟩ := exists_subscript hl hc hnames ha h
  exact ⟨b, index, _, rfl, hb, brings_subscript (isIdentifier_bufferVar (hbuffers b hb)) hplain hread, haddresses⟩

theorem exists_brings_expr {e : LoopNest.Expr} (he : e.WellFormed p.buffers c.iterators) {e' : Expr}
    (h : ofExpr p l e = .ok e') :
    ∃ xs, Brings e'.text.toList xs ∧ List.Forall₂ (Addresses p names l c) e.loads xs := by
  induction e generalizing e' with
  | const v =>
    cases h
    exact ⟨[], brings_numeric (isNumeric_literal v), .nil⟩
  | iter name =>
    obtain ⟨f, hf, h⟩ := bind_eq_ok.1 h
    cases h
    have hover := Affine.over_var (he.iterators name List.mem_cons_self)
    exact ⟨[], ((composes_denotes hnames).ofAffine (over_inLoops hl hc hover hf)).plain.brings.cast rfl, .nil⟩
  | load a =>
    obtain ⟨-, -, x, -, -, hx, haddresses⟩ :=
      exists_brings_access hl hc hnames hbuffers (he.loads a List.mem_cons_self) h
    exact ⟨[x], hx, .cons haddresses .nil⟩
  | binary op lhs rhs ihl ihr =>
    obtain ⟨lhs', rhs', hlhs, hrhs, rfl⟩ := bind₂_eq_ok.1 h
    obtain ⟨xs, hxs, has⟩ := ihl he.left hlhs
    obtain ⟨ys, hys, hbs⟩ := ihr he.right hrhs
    refine ⟨xs ++ ys, ?_, List.rel_append has hbs⟩
    cases op with
    | min => exact hxs.apply₂ rfl hys
    | max => exact hxs.apply₂ rfl hys
    | add => exact (hxs.binary hys (by decide : '+' ∈ infixMarks)).paren
    | sub => exact (hxs.binary hys (by decide : '-' ∈ infixMarks)).paren
    | mul => exact (hxs.binary hys (by decide : '*' ∈ infixMarks)).paren
    | div => exact (hxs.binary hys (by decide : '/' ∈ infixMarks)).paren
  | neg e ih =>
    obtain ⟨e', he', h⟩ := bind_eq_ok.1 h
    cases h
    -- two minus signs are one token, but there is no subscript in a constant
    by_cases hconst : ∃ v, e = .const v
    · obtain ⟨v, rfl⟩ := hconst
      cases he'
      have hnumeric : ∀ d ∈ (Expr.neg (.double v)).text.toList, isNumeric d := by
        have htext : (Expr.neg (.double v)).text.toList = '-' :: (Decimal.literal v).toList := by simp [Expr.text]
        rw [htext]
        exact List.forall_mem_cons.2 ⟨rfl, isNumeric_literal v⟩
      exact ⟨[], (brings_numeric hnumeric).paren, .nil⟩
    · obtain ⟨xs, hxs, haddresses⟩ := ih ⟨he.loads, he.iterators⟩ he'
      exact ⟨xs, (hxs.neg (head_ofExpr (fun v hv => hconst ⟨v, hv⟩) he')).paren, haddresses⟩
  | call f e ih =>
    obtain ⟨e', he', h⟩ := bind_eq_ok.1 h
    cases h
    obtain ⟨xs, hxs, haddresses⟩ := ih ⟨he.loads, he.iterators⟩ he'
    have hname : Name.isIdentifier f.name := by cases f <;> rfl
    exact ⟨xs, hxs.apply hname, haddresses⟩

end Expressions

end LoopNest.C

import LoopNest.Proofs.C.Accesses
import LoopNest.Proofs.C.Execution
import LoopNest.Proofs.Kernel.Lowering
import LoopNest.Proofs.Program.Domain
import LoopNest.Proofs.Tree.Lookup

namespace LoopNest.C

mutual

def Matches (p : Program) (names : List String) : Node → Code → Prop
  | .leaf l, .assign ts subscripts => ∃ c s, p.computations[l.computation]? = some c ∧ assignment p l = .ok s ∧
      tokens (s.text 0).toList = ts ++ [.mark ';'] ∧ List.Forall₂ (Addresses p names l c) c.accesses subscripts
  | .loop h body, .loop counter first goOn code => counter = variableName h.dim ∧
      first.Computes names h.lower.value ∧
      goOn.Computes (h.dim :: names) (fun env => if env h.dim < h.top env then 1 else 0) ∧
      MatchesAll p (h.dim :: names) body code
  | _, _ => False

def MatchesAll (p : Program) (names : List String) : List Node → List Code → Prop
  | [], [] => True
  | n :: ns, c :: cs => Matches p names n c ∧ MatchesAll p names ns cs
  | _, _ => False

end

section Reading

variable {p : Program}

theorem not_isBrace_of_inline {cs : List Char} (h : Inline cs) : ∀ t ∈ lex cs, isBrace t = false := by
  intro t ht
  simp only [isBrace, Bool.or_eq_false_iff, beq_eq_false_iff_ne]
  constructor
  · rintro rfl
    exact h.mark_not_mem rfl ht
  · rintro rfl
    exact h.mark_not_mem rfl ht

theorem not_mem_of_inline {cs : List Char} (h : Inline cs) {c : Char} (hc : isInline c = false) : c ∉ cs :=
  fun hmem => by simp [h c hmem] at hc

def Spelled (ss : List Statement) (ts : List Token) : Prop :=
  ∀ depth r, tokens ((Statement.textAll depth ss).toList ++ r) = ts ++ tokens r

theorem spelled_nil : Spelled [] [] := fun _ _ => rfl

theorem Spelled.cons {s : Statement} {ss : List Statement} {ts us : List Token} (hs : Spelled [s] ts)
    (hss : Spelled ss us) : Spelled (s :: ss) (ts ++ us) := by
  intro depth r
  have htext : (Statement.textAll depth (s :: ss)).toList ++ r =
      (Statement.textAll depth [s]).toList ++ ((Statement.textAll depth ss).toList ++ r) := by
    simp [Statement.textAll]
  rw [htext, hs, hss, List.append_assoc]

theorem tokens_of_spelled {s : Statement} {ts : List Token} (h : Spelled [s] ts) : tokens (s.text 0).toList = ts := by
  simpa [Statement.textAll, tokens_nil] using h 0 []

theorem exists_assign {array : String} (harray : Name.isIdentifier array) (hfor : array ≠ "for") {index value : Expr}
    {xs : List (String × Formula)} (h : Brings (Expr.binary "=" (.subscript array index) value).text.toList xs) :
    ∃ ts, Spelled [.assign (.subscript array index) value] (ts ++ [.mark ';']) ∧
      Reads (ts ++ [.mark ';']) [.assign ts xs] := by
  have hlex : lex (Expr.binary "=" (.subscript array index) value).text.toList =
      lex (Expr.subscript array index).text.toList ++ .mark '=' :: lex value.text.toList :=
    lex_binary (c := '=') (by decide) (.subscript array index) value
  -- the assignment begins with the name of its array, which is no keyword
  have hhead : (lex (Expr.binary "=" (.subscript array index) value).text.toList).head? ≠ some (.word "for") := by
    intro hhead
    rw [hlex, lex_subscript harray] at hhead
    cases hhead
    exact hfor rfl
  refine ⟨_, fun depth r => ?_,
    reads_assign (not_isBrace_of_inline h.inline) (h.inline.mark_not_mem rfl) hhead h.scans⟩
  have htext : Statement.textAll depth [.assign (.subscript array index) value] =
      line depth ((Expr.binary "=" (.subscript array index) value).text ++ ";") := by
    simp [Statement.textAll, Statement.text, Expr.text, String.append_assoc]
  have hend : '\n' ∉ ((Expr.binary "=" (.subscript array index) value).text ++ ";").toList := by
    rw [String.toList_append, List.mem_append, not_or]
    exact ⟨not_mem_of_inline h.inline rfl, by decide⟩
  -- nor does a directive begin with a letter
  have hdirective : isDirective ((Expr.binary "=" (.subscript array index) value).text ++ ";").toList = false := by
    obtain ⟨c, cs, hcs, hletter, -⟩ := Name.isIdentifier_iff.1 harray
    have hopen : ((Expr.binary "=" (.subscript array index) value).text ++ ";").toList =
        c :: (cs ++ ("[" ++ index.text ++ "]" ++ " = " ++ value.text ++ ";").toList) := by
      simp [Expr.text, hcs]
    rw [hopen]
    refine isDirective_of_head (not_isSpace_of_isTail (Name.isTail_of_isLetter hletter)) ?_ _
    rintro rfl
    cases hletter
  have hsemicolon : ";".toList = [';'] := rfl
  rw [htext, tokens_code hend hdirective, String.toList_append, hsemicolon, lex_append_cut rfl]
  rfl

theorem lex_update {v : String} (hv : Name.isIdentifier v) :
    lex (v.toList ++ ['+', '+', ')', ' ', '\x7b']) = [.word v, .pair '+' '+', .mark ')', .mark '\x7b'] := by
  have hsigns : lex ['+', '+', ')', ' ', '\x7b'] = [.pair '+' '+', .mark ')', .mark '\x7b'] := by decide
  rw [lex_identifier_append hv (stop_cons rfl), hsigns]

theorem loopHead_toList (v : String) (lower limit : Expr) : (loopHead v lower limit).toList =
    "for".toList ++ ' ' :: '(' :: ("int64_t".toList ++ ' ' :: (v.toList ++ ' ' :: '=' :: ' ' ::
      (lower.text.toList ++ ';' :: ' ' :: ((Expr.binary "<" (.var v) limit).text.toList ++ ';' :: ' ' ::
        (v.toList ++ ['+', '+', ')', ' ', '\x7b']))))) := by
  have hopen : "for (int64_t ".toList = "for".toList ++ ' ' :: '(' :: ("int64_t".toList ++ [' ']) := rfl
  have hequals : " = ".toList = [' ', '=', ' '] := rfl
  have hless : " < ".toList = " ".toList ++ ("<".toList ++ " ".toList) := rfl
  have hsemicolon : "; ".toList = [';', ' '] := rfl
  have hclose : "++) \x7b".toList = ['+', '+', ')', ' ', '\x7b'] := rfl
  unfold loopHead
  simp only [Expr.text, String.toList_append, hopen, hequals, hless, hsemicolon, hclose, List.append_assoc,
    List.cons_append, List.nil_append]

theorem lex_loopHead {v : String} (hv : Name.isIdentifier v) (lower limit : Expr) :
    lex (loopHead v lower limit).toList =
      .word "for" :: (.mark '(' :: .word "int64_t" :: .word v :: .mark '=' :: (lex lower.text.toList ++ .mark ';' ::
        (lex (Expr.binary "<" (.var v) limit).text.toList ++ .mark ';' ::
          [.word v, .pair '+' '+', .mark ')']))) ++ [.mark '\x7b'] := by
  have hsemicolon (r : List Char) : lex (';' :: r) = .mark ';' :: lex r :=
    lex_mark rfl rfl fun d _ => by simp [isPair]
  rw [loopHead_toList, lex_append_cut rfl, lex_identifier rfl, lex_space rfl, lex_open, lex_append_cut rfl,
    lex_identifier rfl, lex_space rfl, lex_infix (by decide), lex_identifier hv, lex_append_cut rfl, hsemicolon,
    lex_space rfl, lex_append_cut rfl, hsemicolon, lex_space rfl, lex_update hv]
  simp

theorem loopHead_inline {v : String} (hv : Name.isIdentifier v) {lower limit : Expr}
    (hlower : Inline lower.text.toList) (hlimit : Inline (Expr.binary "<" (.var v) limit).text.toList) :
    '\n' ∉ (loopHead v lower limit).toList ∧ isDirective (loopHead v lower limit).toList = false := by
  have hnot {cs : List Char} (h : Inline cs) : '\n' ∉ cs := not_mem_of_inline h rfl
  have hvar := hnot (inline_identifier hv)
  rw [loopHead_toList]
  constructor
  · have hfor : '\n' ∉ "for".toList ∧ '\n' ∉ "int64_t".toList := ⟨by decide, by decide⟩
    simp only [List.mem_append, List.mem_cons, hfor, hvar, hnot hlower, hnot hlimit]
    decide
  · exact isDirective_of_head rfl (by decide) _

theorem exists_loop {names more : List String} {x y : Valuation → Int} {tags : Tags} {v : String} {lower limit : Expr}
    (hv : Name.isIdentifier v) {k j : Nat} (hlower : Denotes names k lower x)
    (hgoOn : Denotes more j (.binary "<" (.var v) limit) y) {ss : List Statement} {ts : List Token} {code : List Code}
    (hspelled : Spelled ss ts) (hreads : Reads ts code) :
    ∃ us first goOn, Spelled [.loop tags v lower limit ss] us ∧ Reads us [.loop v first goOn code] ∧
      first.Computes names x ∧ goOn.Computes more y := by
  obtain ⟨first, hfirst, hx⟩ := hlower.read
  obtain ⟨goOn, hgo, hy⟩ := hgoOn.read
  obtain ⟨hend, hdirective⟩ := loopHead_inline hv hlower.plain.inline hgoOn.plain.inline
  have hbrace : ∀ t ∈ Token.mark '(' :: .word "int64_t" :: .word v :: .mark '=' ::
      (lex lower.text.toList ++ .mark ';' :: (lex (Expr.binary "<" (.var v) limit).text.toList ++ .mark ';' ::
        [.word v, .pair '+' '+', .mark ')'])), isBrace t = false := by
    simp only [List.forall_mem_cons, List.forall_mem_append]
    refine ⟨rfl, rfl, rfl, rfl, not_isBrace_of_inline hlower.plain.inline, rfl,
      not_isBrace_of_inline hgoOn.plain.inline, rfl, rfl, rfl, rfl, ?_⟩
    exact fun t ht => absurd ht List.not_mem_nil
  have hread := readLoopHead_eq (v := v) (hlower.plain.inline.mark_not_mem rfl) (hgoOn.plain.inline.mark_not_mem rfl)
    hfirst hgo
  refine ⟨_, first, goOn, fun depth r => ?_, reads_loop hbrace hread hreads, hx, hy⟩
  have htext : (Statement.textAll depth [.loop tags v lower limit ss]).toList ++ r =
      (directives tags).toList ++ ((line depth (loopHead v lower limit)).toList ++
        ((Statement.textAll (depth + 1) ss).toList ++ ((line depth "\x7d").toList ++ r))) := by
    simp [Statement.textAll, Statement.text]
  have hclose : tokens ((line depth "\x7d").toList ++ r) = .mark '\x7d' :: tokens r :=
    tokens_code (by decide) rfl depth r
  rw [htext, tokens_directives, tokens_code hend hdirective, hspelled, hclose, lex_loopHead hv]
  simp

end Reading

section Trees

theorem bufferVar_ne_for (name : String) : bufferVar name ≠ "for" := by
  intro h
  have hchars : "b_".toList ++ name.toList = "for".toList := by rw [← String.toList_append, ← h, bufferVar]
  cases hchars

variable {p : Program}

theorem exists_leaf (hwf : p.WellFormed) (hbuffers : ∀ b ∈ p.buffers, Name.isIdentifier b.name) {names : List String}
    (hnames : ∀ a ∈ names, Name.isIdentifier a) {l : Leaf} (hl : l.Scoped p names) {s : Statement}
    (hs : assignment p l = .ok s) :
    ∃ ts code, Spelled [s] ts ∧ Reads ts [code] ∧ Matches p names (.leaf l) code := by
  obtain ⟨c, hc, -⟩ := hl.computation
  have hstatement := hs
  simp only [assignment, hc] at hs
  obtain ⟨target, value, htarget, hvalue, rfl⟩ := bind₂_eq_ok.1 hs
  have hmarked : ∀ a ∈ names, Name.isIdentifier (variableName a) := fun a ha =>
    isIdentifier_variableName (hnames a ha)
  have hwell := hwf c (List.mem_of_getElem? hc)
  obtain ⟨b, index, x, rfl, hb, hx, hstore⟩ := exists_brings_access hl hc hmarked hbuffers hwell.store htarget
  obtain ⟨xs, hxs, hloads⟩ := exists_brings_expr hl hc hmarked hbuffers hwell.expr hvalue
  have hassign : Brings (Expr.binary "=" (.subscript (bufferVar b.name) index) value).text.toList ([x] ++ xs) :=
    hx.binary (c := '=') hxs (by decide)
  obtain ⟨ts, hspelled, hreads⟩ :=
    exists_assign (isIdentifier_bufferVar (hbuffers b hb)) (bufferVar_ne_for b.name) hassign
  refine ⟨ts ++ [.mark ';'], .assign ts ([x] ++ xs), hspelled, hreads, ?_⟩
  exact ⟨c, _, hc, hstatement, tokens_of_spelled hspelled, .cons hstore hloads⟩

mutual

theorem exists_node (hwf : p.WellFormed) (hbuffers : ∀ b ∈ p.buffers, Name.isIdentifier b.name) (n : Node)
    {names : List String} (hn : n.Scoped p names) (hnames : ∀ a ∈ names ++ n.dims, Name.isIdentifier a)
    {s : Statement} (hs : ofNode p n = .ok s) :
    ∃ ts code, Spelled [s] ts ∧ Reads ts [code] ∧ Matches p names n code := by
  cases n with
  | leaf l => exact exists_leaf hwf hbuffers (fun a ha => hnames a (List.mem_append_left _ ha)) hn hs
  | loop h body =>
    obtain ⟨hheader, hbody⟩ := hn
    obtain ⟨inner, hinner, hs⟩ := bind_eq_ok.1 hs
    cases hs
    simp only [Node.dims, List.forall_mem_append, List.forall_mem_cons] at hnames
    have hbelow : ∀ a ∈ (h.dim :: names) ++ Node.dimsAll body, Name.isIdentifier a :=
      List.forall_mem_append.2 ⟨List.forall_mem_cons.2 ⟨hnames.2.1, hnames.1⟩, hnames.2.2⟩
    obtain ⟨ts, code, hspelled, hreads, hmatches⟩ := exists_nodes hwf hbuffers body hbody hbelow hinner
    have hmarked : ∀ a ∈ h.dim :: names, Name.isIdentifier (variableName a) := fun a ha =>
      isIdentifier_variableName (hbelow a (List.mem_append_left _ ha))
    have houter : ∀ a ∈ names, Name.isIdentifier (variableName a) := fun a ha => hmarked a (List.mem_cons_of_mem _ ha)
    have hvar := hmarked h.dim List.mem_cons_self
    have hinside {f : Affine} (hf : f ∈ h.limits) : f.Over (h.dim :: names) :=
      (hheader f hf).mono (List.subset_cons_self _ _)
    -- the test compares the loop variable, which is in scope inside, with the least of both limits
    have hgoOn := denotes_less ((denotes_var List.mem_cons_self hvar).mono (by decide))
      (denotes_limit hmarked (hinside Header.upper_mem_limits) fun c hc => hinside (Header.clamp_mem_limits hc))
      (by decide)
    obtain ⟨us, first, goOn, hloop, hread, hfirst, hgo⟩ := exists_loop hvar
      ((composes_denotes houter).ofAffine (hheader _ Header.lower_mem_limits)) hgoOn hspelled hreads
    exact ⟨us, .loop (variableName h.dim) first goOn code, hloop, hread, rfl, hfirst, hgo, hmatches⟩

theorem exists_nodes (hwf : p.WellFormed) (hbuffers : ∀ b ∈ p.buffers, Name.isIdentifier b.name) (ns : List Node)
    {names : List String} (hns : Node.ScopedAll p names ns)
    (hnames : ∀ a ∈ names ++ Node.dimsAll ns, Name.isIdentifier a) {ss : List Statement}
    (hs : ofNodes p ns = .ok ss) :
    ∃ ts codes, Spelled ss ts ∧ Reads ts codes ∧ MatchesAll p names ns codes := by
  cases ns with
  | nil =>
    cases hs
    exact ⟨[], [], spelled_nil, reads_nil, trivial⟩
  | cons n ns =>
    obtain ⟨s, rest, hfirst, hrest, rfl⟩ := bind₂_eq_ok.1 hs
    simp only [Node.dimsAll, List.forall_mem_append] at hnames
    have hleft := List.forall_mem_append.2 ⟨hnames.1, hnames.2.1⟩
    have hright := List.forall_mem_append.2 ⟨hnames.1, hnames.2.2⟩
    obtain ⟨ts, code, hspelled, hreads, hmatches⟩ := exists_node hwf hbuffers n hns.1 hleft hfirst
    obtain ⟨us, codes, hspelled', hreads', hmatches'⟩ := exists_nodes hwf hbuffers ns hns.2 hright hrest
    exact ⟨ts ++ us, code :: codes, hspelled.cons hspelled', hreads.append hreads', hmatches, hmatches'⟩

end

theorem inline_parameters (hbuffers : ∀ b ∈ p.buffers, Name.isIdentifier b.name) :
    Inline (", ".intercalate (p.buffers.map parameterText)).toList := by
  intro c hc
  rw [String.toList_intercalate] at hc
  rcases mem_of_mem_intercalate hc with hc | ⟨cs, hcs, hc⟩
  · exact List.all_eq_true.1 (rfl : ", ".toList.all isInline = true) c hc
  · rw [List.map_map] at hcs
    obtain ⟨b, hb, rfl⟩ := List.mem_map.1 hcs
    have htype : Inline b.dtype.cType.toList := by
      cases b.dtype <;> exact List.all_eq_true.1 rfl
    have hname := inline_identifier (isIdentifier_bufferVar (hbuffers b hb))
    have hparameter : Inline (parameterText b).toList := by
      unfold parameterText
      rw [String.toList_append, String.toList_append]
      exact inline_append.2 ⟨inline_append.2 ⟨htype, List.all_eq_true.1 rfl⟩, hname⟩
    exact hparameter c hc

def signature (p : Program) : String :=
  "static void " ++ functionName ++ "(" ++ ", ".intercalate (p.buffers.map parameterText) ++ ")"

theorem inline_signature (hbuffers : ∀ b ∈ p.buffers, Name.isIdentifier b.name) : Inline (signature p).toList := by
  unfold signature
  simp only [String.toList_append, inline_append]
  exact ⟨⟨⟨⟨List.all_eq_true.1 rfl, List.all_eq_true.1 rfl⟩, List.all_eq_true.1 rfl⟩, inline_parameters hbuffers⟩,
    List.all_eq_true.1 rfl⟩

theorem kernelText_eq_ok {roots : List Node} {text : String} (h : kernelText p roots = .ok text) :
    ∃ body, ofNodes p roots = .ok body ∧ text.toList = (line 0 (signature p ++ " \x7b")).toList ++
      ((Statement.textAll 1 body).toList ++ ((line 0 "\x7d").toList ++ [])) := by
  obtain ⟨body, hbody, h⟩ := bind_eq_ok.1 h
  cases h
  have hopen : ") \x7b\n".toList = ")".toList ++ (" \x7b".toList ++ "\n".toList) := rfl
  have hclose : "\x7d\n".toList = "\x7d".toList ++ "\n".toList := rfl
  refine ⟨body, hbody, ?_⟩
  unfold signature line
  simp only [String.toList_append, hopen, hclose, List.append_assoc, List.append_nil]
  rfl

theorem exists_code (hwf : p.WellFormed) (hbuffers : ∀ b ∈ p.buffers, Name.isIdentifier b.name) {roots : List Node}
    (hroots : Node.ScopedAll p [] roots) (hdims : ∀ a ∈ Node.dimsAll roots, Name.isIdentifier a) {text : String}
    (h : kernelText p roots = .ok text) :
    ∃ code, readKernel (tokens text.toList) = some code ∧ MatchesAll p [] roots code := by
  obtain ⟨body, hbody, htext⟩ := kernelText_eq_ok h
  obtain ⟨ts, code, hspelled, hreads, hmatches⟩ := exists_nodes hwf hbuffers roots hroots hdims hbody
  refine ⟨code, ?_, hmatches⟩
  have hinline := inline_signature hbuffers
  have hdirective : isDirective (signature p ++ " \x7b").toList = false := by
    unfold signature
    simp only [String.toList_append, List.append_assoc]
    exact isDirective_of_head rfl (by decide) _
  have hend : '\n' ∉ (signature p ++ " \x7b").toList := by
    rw [String.toList_append, List.mem_append, not_or]
    exact ⟨not_mem_of_inline hinline rfl, by decide⟩
  have hopen : " \x7b".toList = [' ', '\x7b'] := rfl
  rw [htext, tokens_code hend hdirective, hspelled, tokens_code (by decide) rfl, String.toList_append, hopen,
    lex_append_cut rfl, List.append_assoc]
  exact readKernel_eq (hinline.mark_not_mem rfl) hreads

end Trees

end LoopNest.C

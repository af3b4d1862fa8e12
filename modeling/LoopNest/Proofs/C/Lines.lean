import LoopNest.C.Statement
import LoopNest.Decimal.Layout
import LoopNest.Proofs.C.Formulas

namespace LoopNest.C

def isInline (c : Char) : Bool := !(['\n', ';', '\x7b', '\x7d'].contains c)

def Inline (cs : List Char) : Prop := ∀ c ∈ cs, isInline c

theorem isInline_of_isTail {c : Char} (h : Name.isTail c) : isInline c := by
  simp only [isInline, Bool.not_eq_true', List.contains_eq_mem, decide_eq_false_iff_not]
  intro hmem
  have hfalse := List.all_eq_true.1 (rfl : ['\n', ';', '\x7b', '\x7d'].all (fun d => !Name.isTail d) = true) c hmem
  simp [h] at hfalse

@[simp] theorem inline_nil : Inline [] := fun _ h => absurd h List.not_mem_nil

@[simp] theorem inline_cons {c : Char} {cs : List Char} : Inline (c :: cs) ↔ isInline c ∧ Inline cs :=
  List.forall_mem_cons

@[simp] theorem inline_append {cs ds : List Char} : Inline (cs ++ ds) ↔ Inline cs ∧ Inline ds :=
  List.forall_mem_append

theorem inline_identifier {s : String} (h : Name.isIdentifier s) : Inline s.toList :=
  fun c hc => isInline_of_isTail (Name.isTail_of_mem h c hc)

section Plain

def isPlain (c : Char) : Bool := isInline c && !(c == '[' || c == ']')

def Expr.Plain (e : Expr) : Prop := ∀ c ∈ e.text.toList, isPlain c

theorem isPlain_of_isTail {c : Char} (h : Name.isTail c) : isPlain c := by
  have hbracket : ∀ d ∈ ['[', ']'], c ≠ d := by
    rintro d hd rfl
    have hfalse := List.all_eq_true.1 (rfl : ['[', ']'].all (fun d => !Name.isTail d) = true) c hd
    simp [h] at hfalse
  simp [isPlain, isInline_of_isTail h, hbracket '[' (by decide), hbracket ']' (by decide)]

namespace Expr

variable {e l r : Expr}

theorem Plain.inline (h : e.Plain) : Inline e.text.toList :=
  fun c hc => (Bool.and_eq_true_iff.1 (h c hc)).1

theorem plain_int (n : Int) : (int n).Plain := by
  have hdigits : ∀ c ∈ (toString n.natAbs).toList, isPlain c := fun c hc =>
    isPlain_of_isTail (Name.isTail_of_mem_toString hc)
  unfold Plain
  rw [text, Affine.toString_eq, Affine.leadingSign]
  split_ifs
  · exact List.forall_mem_cons.2 ⟨rfl, hdigits⟩
  · exact hdigits

theorem plain_var {v : String} (hv : Name.isIdentifier v) : (var v).Plain :=
  fun _ hc => isPlain_of_isTail (Name.isTail_of_mem hv _ hc)

theorem Plain.neg (h : e.Plain) : (neg e).Plain := by
  have htext : (Expr.neg e).text.toList = '-' :: e.text.toList := by simp [text]
  unfold Plain
  rw [htext]
  exact List.forall_mem_cons.2 ⟨rfl, h⟩

theorem Plain.paren (h : e.Plain) : (paren e).Plain := by
  have htext : (Expr.paren e).text.toList = '(' :: (e.text.toList ++ [')']) := by simp [text]
  unfold Plain
  rw [htext]
  exact List.forall_mem_cons.2 ⟨rfl, List.forall_mem_append.2 ⟨h, List.all_eq_true.1 rfl⟩⟩

theorem Plain.binary (hl : l.Plain) (hr : r.Plain) {c : Char} (hc : isPlain c) :
    (binary (String.singleton c) l r).Plain := by
  have htext : (Expr.binary (String.singleton c) l r).text.toList =
      l.text.toList ++ ' ' :: c :: ' ' :: r.text.toList := by simp [text]
  unfold Plain
  rw [htext]
  simp only [List.forall_mem_append, List.forall_mem_cons]
  exact ⟨hl, rfl, hc, rfl, hr⟩

theorem Plain.apply₂ {f : String} (hf : Name.isIdentifier f) (hl : l.Plain) (hr : r.Plain) :
    (call f [l, r]).Plain := by
  have htext : (Expr.call f [l, r]).text.toList =
      f.toList ++ '(' :: (l.text.toList ++ ',' :: ' ' :: (r.text.toList ++ [')'])) := by
    simp [text, textAll]
  unfold Plain
  rw [htext]
  simp only [List.forall_mem_append, List.forall_mem_cons]
  exact ⟨plain_var hf, rfl, hl, rfl, rfl, hr, rfl, fun _ h => absurd h List.not_mem_nil⟩

end Expr

end Plain

section Literals

def isNumeric (c : Char) : Bool := Name.isTail c || c == '.' || c == '-'

theorem isNumeric_of_isTail {c : Char} (h : Name.isTail c) : isNumeric c := by simp [isNumeric, h]

theorem isNumeric_digits (n : Nat) : ∀ c ∈ Decimal.digits n, isNumeric c := by
  intro c hc
  refine isNumeric_of_isTail (Name.isTail_of_mem_toString (n := n) ?_)
  rw [Nat.toString_eq_repr, Nat.toList_repr]
  exact hc

theorem isNumeric_zeros (n : Nat) : ∀ c ∈ Decimal.zeros n, isNumeric c := by
  intro c hc
  rw [List.eq_of_mem_replicate hc]
  rfl

theorem isNumeric_positional (s : Decimal.Scaled) : ∀ c ∈ Decimal.positional s, isNumeric c := by
  have hdigits := isNumeric_digits s.significand
  have hpoint : isNumeric '.' ∧ isNumeric '0' := ⟨rfl, rfl⟩
  simp only [Decimal.positional]
  split_ifs
  · exact List.forall_mem_append.2 ⟨hdigits, isNumeric_zeros _⟩
  · exact List.forall_mem_append.2 ⟨fun c hc => hdigits c (List.mem_of_mem_take hc),
      List.forall_mem_cons.2 ⟨hpoint.1, fun c hc => hdigits c (List.mem_of_mem_drop hc)⟩⟩
  · exact List.forall_mem_cons.2 ⟨hpoint.2, List.forall_mem_cons.2 ⟨hpoint.1,
      List.forall_mem_append.2 ⟨isNumeric_zeros _, hdigits⟩⟩⟩

theorem isNumeric_int (n : Int) : ∀ c ∈ (toString n).toList, isNumeric c := by
  rw [Affine.toString_eq]
  refine List.forall_mem_append.2 ⟨?_, fun c hc => isNumeric_of_isTail (Name.isTail_of_mem_toString hc)⟩
  intro c hc
  unfold Affine.leadingSign at hc
  split_ifs at hc
  · rw [List.mem_singleton.1 hc]
    rfl
  · exact absurd hc List.not_mem_nil

theorem isNumeric_exponential (s : Decimal.Scaled) : ∀ c ∈ Decimal.exponential s, isNumeric c := by
  have hdigits := isNumeric_digits s.significand
  have hrest : ∀ c ∈ (Decimal.digits s.significand).drop 1, isNumeric c := fun c hc =>
    hdigits c (List.mem_of_mem_drop hc)
  refine List.forall_mem_append.2 ⟨List.forall_mem_append.2 ⟨fun c hc => hdigits c (List.mem_of_mem_take hc), ?_⟩,
    List.forall_mem_cons.2 ⟨rfl, isNumeric_int _⟩⟩
  split_ifs
  · exact fun c hc => absurd hc List.not_mem_nil
  · exact List.forall_mem_cons.2 ⟨rfl, hrest⟩

theorem isNumeric_signed (x : Float) {magnitude : Decimal.Binary → List Char}
    (h : ∀ b, ∀ c ∈ magnitude b, isNumeric c) : ∀ c ∈ (Decimal.signed x magnitude).toList, isNumeric c := by
  rw [Decimal.signed]
  split
  · exact List.all_eq_true.1 (rfl : "NaN".toList.all isNumeric = true)
  · have hbody : ∀ c ∈ (if x.isInf then ['i', 'n', 'f'] else magnitude (.ofBits x.toBits.toNat)), isNumeric c := by
      split
      · exact List.all_eq_true.1 rfl
      · exact h _
    rw [String.toList_ofList]
    split
    · exact List.forall_mem_cons.2 ⟨rfl, hbody⟩
    · exact hbody

theorem isNumeric_literal (x : Float) : ∀ c ∈ (Decimal.literal x).toList, isNumeric c := by
  refine isNumeric_signed x fun b => ?_
  intro c hc
  simp only at hc
  revert c
  split
  · exact isNumeric_exponential _
  · split
    · exact List.forall_mem_append.2 ⟨isNumeric_positional _, List.all_eq_true.1 rfl⟩
    · exact isNumeric_positional _

end Literals

section Marks

theorem tokens_opening {c d : Char} (h : Token.mark c ∈ (Pending.opening d).tokens) : c = d := by
  unfold Pending.opening at h
  split_ifs at h <;> simp [Pending.tokens] at h
  exact h

theorem mark_mem_step {c d : Char} {s : Pending} :
    (Token.mark c ∈ (s.step d).1 → Token.mark c ∈ s.tokens) ∧
      (Token.mark c ∈ (s.step d).2.tokens → c = d) := by
  unfold Pending.step
  cases he : s.extend d with
  | none => exact ⟨id, tokens_opening⟩
  | some next =>
    cases s with
    | nothing => cases he
    | word cs =>
      rw [Pending.extend] at he
      split at he <;> cases he
      exact ⟨fun h => absurd h List.not_mem_nil, fun h => by simp [Pending.tokens] at h⟩
    | number cs =>
      rw [Pending.extend] at he
      split at he <;> cases he
      exact ⟨fun h => absurd h List.not_mem_nil, fun h => by simp [Pending.tokens] at h⟩
    | mark m =>
      rw [Pending.extend] at he
      split at he <;> cases he
      exact ⟨fun h => by simp at h, fun h => absurd h List.not_mem_nil⟩

theorem mark_mem_lexFrom {c : Char} {s : Pending} {cs : List Char} (h : Token.mark c ∈ lexFrom s cs) :
    Token.mark c ∈ s.tokens ∨ c ∈ cs := by
  induction cs generalizing s with
  | nil => exact Or.inl h
  | cons d cs ih =>
    rcases List.mem_append.1 h with h | h
    · exact Or.inl (mark_mem_step.1 h)
    · rcases ih h with h | h
      · exact Or.inr (mark_mem_step.2 h ▸ List.mem_cons_self)
      · exact Or.inr (List.mem_cons_of_mem d h)

theorem mark_mem_lex {c : Char} {cs : List Char} (h : Token.mark c ∈ lex cs) : c ∈ cs :=
  (mark_mem_lexFrom h).resolve_left List.not_mem_nil

theorem Inline.mark_not_mem {cs : List Char} (h : Inline cs) {c : Char} (hc : isInline c = false) :
    Token.mark c ∉ lex cs := by
  intro hmem
  simp [h c (mark_mem_lex hmem)] at hc

end Marks

section Lines

theorem lex_indentation (depth : Nat) (cs : List Char) : lex (List.replicate depth ' ' ++ cs) = lex cs := by
  induction depth with
  | zero => rfl
  | succ depth ih => rw [List.replicate_succ, List.cons_append, lex_space rfl, ih]

theorem isDirective_indentation (depth : Nat) (cs : List Char) :
    isDirective (List.replicate depth ' ' ++ cs) = isDirective cs := by
  induction depth with
  | zero => rfl
  | succ depth ih => rw [List.replicate_succ, List.cons_append, ← ih]; rfl

theorem tokens_code {s : String} (hend : '\n' ∉ s.toList) (hdirective : isDirective s.toList = false) (depth : Nat)
    (r : List Char) : tokens ((line depth s).toList ++ r) = lex s.toList ++ tokens r := by
  have htext : (line depth s).toList ++ r = List.replicate (2 * depth) ' ' ++ s.toList ++ '\n' :: r := by
    simp [line, Text.indentation]
  have hspaces : ∀ c ∈ List.replicate (2 * depth) ' ' ++ s.toList, c ≠ '\n' := by
    intro c hc
    rcases List.mem_append.1 hc with hc | hc
    · rw [List.eq_of_mem_replicate hc]
      decide
    · rintro rfl
      exact hend hc
  rw [htext, tokens_line hspaces, lineTokens, isDirective_indentation, hdirective, if_neg Bool.false_ne_true,
    lex_indentation]

theorem isDirective_of_head {c : Char} (hspace : isSpace c = false) (hc : c ≠ '#') (cs : List Char) :
    isDirective (c :: cs) = false := by
  simp [isDirective, hspace, hc]

theorem tokens_directive {l : List Char} (hl : '\n' ∉ l) (r : List Char) :
    tokens ('#' :: (l ++ '\n' :: r)) = tokens r := by
  have hline : ∀ c ∈ '#' :: l, c ≠ '\n' := by
    refine List.forall_mem_cons.2 ⟨by decide, ?_⟩
    rintro c hc rfl
    exact hl hc
  rw [← List.cons_append, tokens_line hline]
  rfl

theorem tokens_numbered (opening closing : String) (ho : '\n' ∉ opening.toList) (hc : '\n' ∉ closing.toList)
    (n : Nat) (r : List Char) :
    tokens (("#" ++ opening ++ toString n ++ closing ++ "\n").toList ++ r) = tokens r := by
  have hline : '\n' ∉ opening.toList ++ (toString n).toList ++ closing.toList := by
    simp only [List.mem_append, not_or]
    exact ⟨⟨ho, fun h => absurd (Name.isTail_of_mem_toString h) (by decide)⟩, hc⟩
  simpa using tokens_directive hline r

theorem tokens_directives (t : Tags) (r : List Char) : tokens ((directives t).toList ++ r) = tokens r := by
  obtain ⟨parallel, vectorize, unroll⟩ := t
  rw [directives, String.toList_append, String.toList_append, List.append_assoc, List.append_assoc]
  have hparallel (r : List Char) :
      tokens ((if parallel then "#pragma omp parallel for\n" else "").toList ++ r) = tokens r := by
    cases parallel with
    | false => rfl
    | true => exact tokens_directive (l := "pragma omp parallel for".toList) (by decide) r
  have hvectorize (n : Nat) (r : List Char) : tokens (("#pragma clang loop vectorize(enable) vectorize_width(" ++
      toString n ++ ")\n").toList ++ r) = tokens r := by
    have hopening : '\n' ∉ "pragma clang loop vectorize(enable) vectorize_width(".toList := by decide
    simpa using tokens_numbered _ ")" hopening (by decide) n r
  have hunroll (n : Nat) (r : List Char) :
      tokens (("#pragma unroll " ++ toString n ++ "\n").toList ++ r) = tokens r := by
    simpa using tokens_numbered "pragma unroll " "" (by decide) (by decide) n r
  refine (hparallel _).trans ?_
  cases vectorize with
  | none =>
    cases unroll with
    | none => rfl
    | some n => exact hunroll n r
  | some m =>
    refine (hvectorize m _).trans ?_
    cases unroll with
    | none => rfl
    | some n => exact hunroll n r

end Lines

end LoopNest.C

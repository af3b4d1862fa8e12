import LoopNest.Affine.Printer
import LoopNest.Proofs.Affine.Renaming
import LoopNest.Decimal.Integer
import LoopNest.Proofs.Text.Name
import LoopNest.Proofs.Text.Words

namespace LoopNest.Affine

open Text (blankFree isBlank)

/-- Only the least word has no magnitude that could be written. -/
def Printable (f : Affine) : Prop := f.constant ≠ Word.minValue ∧ ∀ t ∈ f.terms, t.coeff ≠ Word.minValue

instance (f : Affine) : Decidable f.Printable :=
  inferInstanceAs (Decidable (f.constant ≠ Word.minValue ∧ ∀ t ∈ f.terms, t.coeff ≠ Word.minValue))

structure Readable (f : Affine) : Prop where
  normal : f.Normal
  printable : f.Printable ∨ f.terms = []
  atoms : ∀ a ∈ f.atoms, Name.isIdentifier a

section Pieces

def factorChars (t : Term) : List Char :=
  (if t.coeff.natAbs = 1 then [] else (toString t.coeff.natAbs).toList ++ ['*']) ++ t.atom.toList

def signChar (c : Int) : Char := if c < 0 then '-' else '+'

def leadingSign (c : Int) : List Char := if c < 0 then ['-'] else []

def signedTerm (t : Term) : List Char := signChar t.coeff :: factorChars t

def constantPieces (c : Int) : List (List Char) :=
  if c = 0 then [] else [signChar c :: (toString c.natAbs).toList]

def pieces (f : Affine) : List (List Char) :=
  match f.terms with
  | [] => [leadingSign f.constant ++ (toString f.constant.natAbs).toList]
  | t :: ts => (leadingSign t.coeff ++ factorChars t) :: (ts.map signedTerm ++ constantPieces f.constant)

end Pieces

section Printing

theorem abs_of_fits {c : Int} (hfits : Word.fits c = true) (hleast : c ≠ Word.minValue) :
    Word.abs c = .ok (c.natAbs : Int) := by
  rw [Word.fits_iff] at hfits
  refine Word.checked_of_fits (Word.fits_iff.2 ?_)
  simp only [Word.minValue, Word.maxValue] at *
  omega

theorem exists_termText (first : Bool) {t : Term} (hfits : Word.fits t.coeff = true)
    (hleast : t.coeff ≠ Word.minValue) : ∃ s, termText first t = .ok s := by
  rw [termText, abs_of_fits hfits hleast]
  exact ⟨_, rfl⟩

theorem exists_termsText (first : Bool) {ts : List Term}
    (h : ∀ t ∈ ts, Word.fits t.coeff = true ∧ t.coeff ≠ Word.minValue) : ∃ s, termsText first ts = .ok s := by
  induction ts generalizing first with
  | nil => exact ⟨_, rfl⟩
  | cons t ts ih =>
    obtain ⟨⟨hfits, hleast⟩, hts⟩ := List.forall_mem_cons.1 h
    obtain ⟨head, hhead⟩ := exists_termText first hfits hleast
    obtain ⟨rest, hrest⟩ := ih false hts
    exact ⟨head ++ rest, bind₂_eq_ok.2 ⟨head, rest, hhead, hrest, rfl⟩⟩

theorem exists_text {f : Affine} (hfits : f.Fits) (h : f.Printable) : ∃ s, f.text = .ok s := by
  rw [text]
  split
  · exact ⟨_, rfl⟩
  · obtain ⟨ts, hts⟩ := exists_termsText true fun t ht => ⟨hfits.coeffs t ht, h.2 t ht⟩
    have hconstant : ∃ c, constantText f.constant = .ok c := by
      rw [constantText]
      split
      · exact ⟨_, rfl⟩
      · split
        · next hneg =>
          have habs := abs_of_fits hfits.constant h.1
          have hmagnitude : Word.neg f.constant = Word.abs f.constant := by
            rw [Word.neg, Word.abs, Int.ofNat_natAbs_of_nonpos (by omega)]
          rw [hmagnitude, habs]
          exact ⟨_, rfl⟩
        · exact ⟨_, rfl⟩
    obtain ⟨c, hc⟩ := hconstant
    exact ⟨ts ++ c, bind₂_eq_ok.2 ⟨ts, c, hts, hc, rfl⟩⟩

theorem Readable.exists_text {f : Affine} (hf : f.Readable) : ∃ s, f.text = .ok s := by
  rcases hf.printable with hprintable | hterms
  · exact Affine.exists_text hf.normal.fits hprintable
  · exact ⟨_, by rw [text, hterms]; rfl⟩

theorem ne_minValue_of_termsText {first : Bool} {ts : List Term} {s : String} (h : termsText first ts = .ok s) :
    ∀ t ∈ ts, t.coeff ≠ Word.minValue := by
  induction ts generalizing first s with
  | nil => exact nofun
  | cons t ts ih =>
    obtain ⟨head, rest, hhead, hrest, -⟩ := bind₂_eq_ok.1 h
    refine List.forall_mem_cons.2 ⟨fun hleast => ?_, ih hrest⟩
    rw [termText, hleast] at hhead
    cases hhead

theorem printable_of_text {f : Affine} {s : String} (h : f.text = .ok s) : f.Printable ∨ f.terms = [] := by
  rw [text] at h
  split at h
  · next hterms => exact Or.inr (List.isEmpty_iff.1 hterms)
  · obtain ⟨ts, c, hts, hc, -⟩ := bind₂_eq_ok.1 h
    refine Or.inl ⟨fun hleast => ?_, ne_minValue_of_termsText hts⟩
    rw [hleast] at hc
    cases hc

end Printing

section Blanks

theorem blankFree_append (s t : String) : blankFree (s ++ t) = blankFree s ++ blankFree t := by
  rw [blankFree, String.toList_append, List.filter_append]
  rfl

theorem blankFree_of_tail {s : String} (h : ∀ c ∈ s.toList, Name.isTail c) : blankFree s = s.toList :=
  List.filter_eq_self.2 fun c hc => by rw [Name.not_blank_of_isTail (h c hc)]; rfl

theorem blankFree_toString (n : Nat) : blankFree (toString n) = (toString n).toList :=
  blankFree_of_tail fun _ => Name.isTail_of_mem_toString

theorem blankFree_termText {first : Bool} {t : Term} {s : String} (hatom : Name.isIdentifier t.atom)
    (h : termText first t = .ok s) :
    blankFree s = (if first then leadingSign t.coeff else [signChar t.coeff]) ++ factorChars t := by
  obtain ⟨m, hm, h⟩ := bind_eq_ok.1 h
  obtain ⟨rfl, -⟩ := Word.checked_eq_ok.1 hm
  cases h
  have hmagnitude : ((t.coeff.natAbs : Int) = 1) ↔ t.coeff.natAbs = 1 := by omega
  have hsign : blankFree (if first then (if t.coeff < 0 then "-" else "")
      else (if t.coeff < 0 then " - " else " + ")) =
      if first then leadingSign t.coeff else [signChar t.coeff] := by
    unfold leadingSign signChar
    cases first <;> by_cases hneg : t.coeff < 0 <;> simp only [hneg] <;> rfl
  have hfactor : blankFree (if (t.coeff.natAbs : Int) = 1 then "" else toString (t.coeff.natAbs : Int) ++ "*") =
      if t.coeff.natAbs = 1 then [] else (toString t.coeff.natAbs).toList ++ ['*'] := by
    simp only [hmagnitude]
    split
    · rfl
    · rw [blankFree_append]
      exact congrArg (· ++ ['*']) (blankFree_toString _)
  rw [blankFree_append, blankFree_append, hsign, hfactor, blankFree_of_tail (Name.isTail_of_mem hatom), factorChars,
    List.append_assoc]

theorem blankFree_termsText {ts : List Term} {s : String} (hatoms : ∀ t ∈ ts, Name.isIdentifier t.atom)
    (h : termsText false ts = .ok s) : blankFree s = (ts.map signedTerm).flatten := by
  induction ts generalizing s with
  | nil =>
    cases h
    rfl
  | cons t ts ih =>
    obtain ⟨hatom, hatoms⟩ := List.forall_mem_cons.1 hatoms
    obtain ⟨head, rest, hhead, hrest, rfl⟩ := bind₂_eq_ok.1 h
    rw [blankFree_append, blankFree_termText hatom hhead, ih hatoms hrest]
    rfl

theorem blankFree_constantText {c : Int} {s : String} (h : constantText c = .ok s) :
    blankFree s = (constantPieces c).flatten := by
  rw [constantText] at h
  rw [constantPieces]
  split at h
  · next hzero =>
    cases h
    rw [if_pos hzero]
    rfl
  · next hzero =>
    have hdigits : blankFree (toString (c.natAbs : Int)) = (toString c.natAbs).toList := blankFree_toString _
    rw [if_neg hzero, List.flatten_cons, List.flatten_nil, List.append_nil, signChar, ← hdigits]
    split at h
    · next hneg =>
      obtain ⟨m, hm, h⟩ := bind_eq_ok.1 h
      obtain ⟨rfl, -⟩ := Word.checked_eq_ok.1 hm
      cases h
      rw [if_pos hneg, Int.ofNat_natAbs_of_nonpos (Int.le_of_lt hneg), blankFree_append]
      rfl
    · next hneg =>
      cases h
      rw [if_neg hneg, Int.natAbs_of_nonneg (Int.not_lt.1 hneg), blankFree_append]
      rfl

theorem toString_eq (c : Int) : (toString c).toList = leadingSign c ++ (toString c.natAbs).toList := by
  cases c with
  | ofNat n => rfl
  | negSucc n =>
    rw [leadingSign, if_pos (Int.negSucc_lt_zero n)]
    exact String.toList_append

theorem blankFree_text {f : Affine} (hatoms : ∀ a ∈ f.atoms, Name.isIdentifier a) {s : String} (h : f.text = .ok s) :
    blankFree s = f.pieces.flatten := by
  obtain ⟨terms, constant⟩ := f
  cases terms with
  | nil =>
    cases h
    have hblank : ∀ c ∈ (toString constant).toList, isBlank c = false := by
      rw [toString_eq]
      refine List.forall_mem_append.2 ⟨fun c hc => ?_, fun c hc => ?_⟩
      · rw [leadingSign] at hc
        split at hc
        · obtain rfl := List.mem_singleton.1 hc
          rfl
        · cases hc
      · exact Name.not_blank_of_isTail (Name.isTail_of_mem_toString hc)
    rw [blankFree, List.filter_eq_self.2 fun c hc => by rw [hblank c hc]; rfl, toString_eq, pieces,
      List.flatten_cons, List.flatten_nil, List.append_nil]
  | cons t ts =>
    obtain ⟨hatom, hatoms⟩ := List.forall_mem_cons.1 hatoms
    rw [List.forall_mem_map] at hatoms
    obtain ⟨first, last, hfirst, hlast, rfl⟩ := bind₂_eq_ok.1 h
    obtain ⟨head, rest, hhead, hrest, rfl⟩ := bind₂_eq_ok.1 hfirst
    rw [blankFree_append, blankFree_append, blankFree_termText hatom hhead, blankFree_termsText hatoms hrest,
      blankFree_constantText hlast, pieces, List.flatten_cons, List.flatten_append, List.append_assoc]
    rfl

end Blanks

section Reading

theorem cutTerms_cons_cons {c d : Char} {r w : List Char} {ws : List (List Char)} (h : cutTerms (d :: r) = w :: ws) :
    cutTerms (c :: d :: r) = if isSign d then [c] :: w :: ws else (c :: w) :: ws := by
  rw [cutTerms.eq_def]
  simp only [h]

theorem cutTerms_cons_ne_nil (c : Char) (r : List Char) : cutTerms (c :: r) ≠ [] := by
  cases r with
  | nil => exact List.cons_ne_nil _ _
  | cons d r =>
    rw [cutTerms.eq_def]
    simp only
    split
    · split <;> exact List.cons_ne_nil _ _
    · exact List.cons_ne_nil _ _

theorem cutTerms_append {c : Char} {body rest : List Char} (hbody : ∀ d ∈ body, isSign d = false)
    (hrest : ∀ d ∈ rest.head?, isSign d = true) : cutTerms (c :: (body ++ rest)) = (c :: body) :: cutTerms rest := by
  induction body generalizing c with
  | nil =>
    cases rest with
    | nil => rfl
    | cons d r =>
      obtain ⟨w, ws, hw⟩ := List.exists_cons_of_ne_nil (cutTerms_cons_ne_nil d r)
      rw [List.nil_append, cutTerms_cons_cons hw, if_pos (hrest d rfl), hw]
  | cons b body ih =>
    obtain ⟨hb, hbody⟩ := List.forall_mem_cons.1 hbody
    rw [List.cons_append, cutTerms_cons_cons (ih hbody), if_neg (by simp [hb])]

theorem cutTerms_flatten {ps : List (List Char)} (hne : ∀ p ∈ ps, p ≠ [])
    (hbody : ∀ p ∈ ps, ∀ d ∈ p.tail, isSign d = false) (hsign : ∀ p ∈ ps.tail, ∀ d ∈ p.head?, isSign d = true) :
    cutTerms ps.flatten = ps := by
  induction ps with
  | nil => rfl
  | cons p ps ih =>
    have hne := List.forall_mem_cons.1 hne
    have hbody := List.forall_mem_cons.1 hbody
    obtain ⟨c, body, rfl⟩ := List.exists_cons_of_ne_nil hne.1
    have hrest : ∀ d ∈ ps.flatten.head?, isSign d = true := by
      cases ps with
      | nil => simp
      | cons q qs =>
        obtain ⟨d, r, rfl⟩ := List.exists_cons_of_ne_nil (hne.2 q List.mem_cons_self)
        exact hsign (d :: r) List.mem_cons_self
    rw [List.flatten_cons, List.cons_append, @cutTerms_append c body _ hbody.1 hrest,
      ih hne.2 hbody.2 fun q hq => hsign q (List.mem_of_mem_tail hq)]

theorem splitSign_signChar (c : Int) (body : List Char) :
    splitSign (signChar c :: body) = (if c < 0 then -1 else 1, body) := by
  unfold signChar
  split <;> rfl

theorem splitSign_leadingSign (c : Int) {d : Char} (hd : Name.isTail d) (body : List Char) :
    splitSign (leadingSign c ++ d :: body) = (if c < 0 then -1 else 1, d :: body) := by
  unfold leadingSign
  split
  · rfl
  · rw [List.nil_append, splitSign.eq_def]
    split
    · next heq => exact absurd (List.cons.inj heq).1 (Name.ne_of_isTail hd (by decide))
    · next heq => exact absurd (List.cons.inj heq).1 (Name.ne_of_isTail hd (by decide))
    · rfl

theorem literal?_natAbs {c : Int} (hfits : Word.fits c = true) (hleast : c ≠ Word.minValue) :
    literal? (toString c.natAbs).toList = some (c.natAbs : Int) := by
  have habs := (Word.checked_eq_ok.1 (abs_of_fits hfits hleast)).2
  rw [literal?, Decimal.unsigned?_toString, Option.bind_some, if_pos habs]

theorem literal?_of_letter {c : Char} {r : List Char} (hc : Name.isLetter c) : literal? (c :: r) = none := by
  have hall : (c :: r).all Decimal.isDigit = false := by
    rw [List.all_cons, Name.not_isDigit_of_isLetter hc, Bool.false_and]
  rw [literal?, Decimal.unsigned?, hall]
  rfl

theorem mul_sign_natAbs {c : Int} (hfits : Word.fits c = true) :
    Word.mul (if c < 0 then -1 else 1) (c.natAbs : Int) = .ok c := by
  have hvalue : (if c < 0 then -1 else 1) * (c.natAbs : Int) = c := by split <;> omega
  rw [Word.mul, hvalue, Word.checked_of_fits hfits]

variable {e : ParseError}

theorem parseFactors_identifier (c : Int) {a : String} (h : Name.isIdentifier a) :
    parseFactors e c none [a.toList] = .ok (c, some a) := by
  obtain ⟨d, r, ha, hd, -⟩ := Name.isIdentifier_iff.1 h
  have hliteral : literal? a.toList = none := ha ▸ literal?_of_letter hd
  have hidentifier : Name.isIdentifierChars a.toList = true := h
  rw [parseFactors, hliteral]
  simp only [hidentifier, Option.isNone_none, Bool.and_self, if_true]
  rw [parseFactors, String.ofList_toList]

theorem not_star_of_isTail {c : Char} (h : Name.isTail c) : (c == '*') = false := by
  simpa using Name.ne_of_isTail h (by decide)

theorem parseFactors_factorChars {t : Term} (hfits : Word.fits t.coeff = true) (hleast : t.coeff ≠ Word.minValue)
    (hatom : Name.isIdentifier t.atom) :
    parseFactors e (if t.coeff < 0 then -1 else 1) none (Text.splitWhere (· == '*') (factorChars t)) =
      .ok (t.coeff, some t.atom) := by
  have hlast : Text.splitWhere (· == '*') t.atom.toList = [t.atom.toList] :=
    Text.splitWhere_of_forall fun c hc => not_star_of_isTail (Name.isTail_of_mem hatom c hc)
  have hmul := mul_sign_natAbs hfits
  rw [factorChars]
  by_cases hone : t.coeff.natAbs = 1
  · rw [hone, Word.mul, Int.natCast_one, Int.mul_one] at hmul
    rw [if_pos hone, List.nil_append, hlast, parseFactors_identifier _ hatom, ← (Word.checked_eq_ok.1 hmul).1]
  · have hdigits : ∀ c ∈ (toString t.coeff.natAbs).toList, (c == '*') = false :=
      fun c hc => not_star_of_isTail (Name.isTail_of_mem_toString hc)
    rw [if_neg hone, List.append_assoc, List.singleton_append, Text.splitWhere_append_cons hdigits (by decide), hlast,
      parseFactors, literal?_natAbs hfits hleast]
    change (liftM (Word.mul _ _) >>= _) = _
    rw [hmul]
    exact parseFactors_identifier _ hatom

variable {f : Affine}

theorem collect_of_isCanonical {ts : List Term} {c : Int} (h : IsCanonical ⟨ts, c⟩) : collect ts = .ok ts := by
  have hatoms : (ts.map Term.atom).Nodup := List.pairwise_map.2 (h.1.imp fun h => String.ne_of_lt h)
  obtain ⟨us, hus, hperm⟩ := exists_collect hatoms h.2
  obtain rfl := hperm.eq_of_pairwise (fun t u _ _ htu hut => absurd htu (String.lt_asymm hut))
    (isCanonical_of_collect hus c).1 h.1
  exact hus

theorem add_term {us : List Term} {t : Term} (h : IsCanonical ⟨us ++ [t], 0⟩) :
    (⟨us, 0⟩ : Affine).add ⟨[t], 0⟩ = .ok ⟨us ++ [t], 0⟩ := by
  rw [add]
  change (do let ts ← collect (us ++ [t]); pure (⟨ts, 0⟩ : Affine)) = _
  rw [collect_of_isCanonical h]
  rfl

theorem add_constant {us : List Term} {c : Int} (h : IsCanonical ⟨us, 0⟩) (hc : Word.fits c = true) :
    (⟨us, 0⟩ : Affine).add (ofInt c) = .ok ⟨us, c⟩ := by
  rw [add, ofInt, Word.add, Int.zero_add, Word.checked_of_fits hc, ok_bind, List.append_nil,
    collect_of_isCanonical h]
  rfl

theorem mem_factorChars {t : Term} (hatom : Name.isIdentifier t.atom) :
    ∀ c ∈ factorChars t, Name.isTail c ∨ c = '*' := by
  intro c hc
  rw [factorChars] at hc
  split at hc
  · exact Or.inl (Name.isTail_of_mem hatom c hc)
  · simp only [List.mem_append, List.mem_singleton] at hc
    rcases hc with (hc | hc) | hc
    · exact Or.inl (Name.isTail_of_mem_toString hc)
    · exact Or.inr hc
    · exact Or.inl (Name.isTail_of_mem hatom c hc)

theorem factorChars_eq_cons {t : Term} (hatom : Name.isIdentifier t.atom) :
    ∃ d r, factorChars t = d :: r ∧ Name.isTail d := by
  rw [factorChars]
  split
  · obtain ⟨d, r, ha, hd, -⟩ := Name.isIdentifier_iff.1 hatom
    exact ⟨d, r, ha, Name.isTail_of_isLetter hd⟩
  · obtain ⟨d, r, hd⟩ := List.exists_cons_of_ne_nil (Decimal.toString_ne_nil t.coeff.natAbs)
    exact ⟨d, _, by rw [hd]; rfl, Name.isTail_of_mem_toString (hd ▸ List.mem_cons_self)⟩

theorem readTerm_term {term : List Char} {t : Term}
    (hsign : splitSign term = (if t.coeff < 0 then -1 else 1, factorChars t)) (hfits : Word.fits t.coeff = true)
    (hleast : t.coeff ≠ Word.minValue) (hne : t.coeff ≠ 0) (hatom : Name.isIdentifier t.atom) :
    readTerm e term = .ok ⟨[t], 0⟩ := by
  rw [readTerm, hsign]
  simp only
  rw [parseFactors_factorChars hfits hleast hatom]
  change (liftM ((var t.atom).scale t.coeff) : Outcome ParseError Affine) = _
  rw [scale_var hfits hne]
  rfl

theorem readTerm_constant {term : List Char} {c : Int}
    (hsign : splitSign term = (if c < 0 then -1 else 1, (toString c.natAbs).toList)) (hfits : Word.fits c = true)
    (hleast : c ≠ Word.minValue) : readTerm e term = .ok (ofInt c) := by
  have hdigits : ∀ d ∈ (toString c.natAbs).toList, (d == '*') = false :=
    fun d hd => not_star_of_isTail (Name.isTail_of_mem_toString hd)
  rw [readTerm, hsign]
  simp only
  rw [Text.splitWhere_of_forall hdigits, parseFactors, literal?_natAbs hfits hleast]
  change ((liftM (Word.mul _ _) : Outcome ParseError Int) >>= _) >>= _ = _
  rw [mul_sign_natAbs hfits]
  rfl

theorem sumTerms_cons {acc g h : Affine} {w : List Char} {ws : List (List Char)} (hw : readTerm e w = .ok g)
    (hadd : acc.add g = .ok h) : sumTerms e acc (w :: ws) = sumTerms e h ws := by
  rw [sumTerms, hw, ok_bind]
  change ((liftM (acc.add g) : Outcome ParseError Affine) >>= _) = _
  rw [hadd]
  rfl

theorem sumTerms_signedTerms {us ts : List Term} {rest : List (List Char)} (hcanonical : IsCanonical ⟨us ++ ts, 0⟩)
    (hts : ∀ t ∈ ts, Word.fits t.coeff = true ∧ t.coeff ≠ Word.minValue ∧ Name.isIdentifier t.atom) :
    sumTerms e ⟨us, 0⟩ (ts.map signedTerm ++ rest) = sumTerms e ⟨us ++ ts, 0⟩ rest := by
  induction ts generalizing us with
  | nil => rw [List.append_nil, List.map_nil, List.nil_append]
  | cons t ts ih =>
    obtain ⟨⟨hfits, hleast, hatom⟩, hts⟩ := List.forall_mem_cons.1 hts
    rw [List.append_cons] at hcanonical ⊢
    have hfirst : IsCanonical ⟨us ++ [t], 0⟩ :=
      ⟨hcanonical.1.sublist (List.sublist_append_left _ _), fun u hu => hcanonical.2 u (List.mem_append_left _ hu)⟩
    have hne := hfirst.2 t (List.mem_append_right us List.mem_cons_self)
    have hread := readTerm_term (e := e) (splitSign_signChar _ _) hfits hleast hne hatom
    rw [List.map_cons, List.cons_append, signedTerm, sumTerms_cons hread (add_term hfirst), ih hcanonical hts]

theorem sumTerms_constantPieces {us : List Term} {c : Int} (hcanonical : IsCanonical ⟨us, 0⟩)
    (hfits : Word.fits c = true) (hleast : c ≠ Word.minValue) :
    sumTerms e ⟨us, 0⟩ (constantPieces c) = .ok ⟨us, c⟩ := by
  rw [constantPieces]
  split
  · next hzero =>
    rw [hzero]
    rfl
  · exact sumTerms_cons (readTerm_constant (splitSign_signChar _ _) hfits hleast) (add_constant hcanonical hfits)

theorem sumTerms_pieces (hf : f.Readable) (hleast : f.Printable) : sumTerms e zero f.pieces = .ok f := by
  obtain ⟨⟨⟨hconstant, hcoeffs⟩, hcanonical⟩, -, hatoms⟩ := hf
  obtain ⟨terms, constant⟩ := f
  have hatoms : ∀ t ∈ terms, Name.isIdentifier t.atom := List.forall_mem_map.1 hatoms
  cases terms with
  | nil =>
    obtain ⟨d, r, hd⟩ := List.exists_cons_of_ne_nil (Decimal.toString_ne_nil constant.natAbs)
    have htail : Name.isTail d := Name.isTail_of_mem_toString (hd ▸ List.mem_cons_self)
    have hsign := splitSign_leadingSign constant htail r
    rw [← hd] at hsign
    exact sumTerms_cons (readTerm_constant hsign hconstant hleast.1) (add_constant (isCanonical_ofInt 0) hconstant)
  | cons t ts =>
    obtain ⟨d, r, hd, htail⟩ := factorChars_eq_cons (hatoms t List.mem_cons_self)
    have hsign := splitSign_leadingSign t.coeff htail r
    rw [← hd] at hsign
    -- the first term has no plus sign in its text; what follows is added to it in order
    have hfirst : IsCanonical ⟨[] ++ [t], 0⟩ :=
      ⟨List.pairwise_singleton _ _, List.forall_mem_singleton.2 (hcanonical.2 t List.mem_cons_self)⟩
    have hread := readTerm_term (e := e) hsign (hcoeffs t List.mem_cons_self) (hleast.2 t List.mem_cons_self)
      (hcanonical.2 t List.mem_cons_self) (hatoms t List.mem_cons_self)
    rw [pieces, zero, ofInt, sumTerms_cons hread (add_term hfirst), List.nil_append, sumTerms_signedTerms hcanonical
      fun u hu => ⟨hcoeffs u (List.mem_cons_of_mem t hu), hleast.2 u (List.mem_cons_of_mem t hu),
        hatoms u (List.mem_cons_of_mem t hu)⟩]
    exact sumTerms_constantPieces hcanonical hconstant hleast.1

theorem not_isSign {c : Char} (h : Name.isTail c ∨ c = '*') : isSign c = false := by
  rcases h with h | rfl
  · simp [isSign, Name.ne_of_isTail h (show Name.isTail '+' = false by decide),
      Name.ne_of_isTail h (show Name.isTail '-' = false by decide)]
  · rfl

theorem isSign_signChar (c : Int) : isSign (signChar c) = true := by
  unfold signChar
  split <;> rfl

structure Piece (p : List Char) : Prop where
  ne_nil : p ≠ []
  tail : ∀ d ∈ p.tail, isSign d = false

theorem piece_leadingSign (c : Int) {body : List Char} (hne : body ≠ []) (h : ∀ x ∈ body, Name.isTail x ∨ x = '*') :
    Piece (leadingSign c ++ body) := by
  unfold leadingSign
  split
  · exact ⟨List.cons_ne_nil _ _, fun x hx => not_isSign (h x hx)⟩
  · exact ⟨hne, fun x hx => not_isSign (h x (List.mem_of_mem_tail hx))⟩

theorem piece_signChar (c : Int) {body : List Char} (h : ∀ x ∈ body, Name.isTail x ∨ x = '*') :
    Piece (signChar c :: body) :=
  ⟨List.cons_ne_nil _ _, fun x hx => not_isSign (h x hx)⟩

theorem cutTerms_pieces (hatoms : ∀ a ∈ f.atoms, Name.isIdentifier a) : cutTerms f.pieces.flatten = f.pieces := by
  obtain ⟨terms, constant⟩ := f
  have hatoms : ∀ t ∈ terms, Name.isIdentifier t.atom := List.forall_mem_map.1 hatoms
  have hdigits : ∀ x ∈ (toString constant.natAbs).toList, Name.isTail x ∨ x = '*' :=
    fun x hx => Or.inl (Name.isTail_of_mem_toString hx)
  -- behind the first piece every piece opens with a sign, and there is none inside a piece
  have hcut {p : List Char} {ps : List (List Char)} (hp : Piece p)
      (hps : ∀ q ∈ ps, ∃ c body, q = signChar c :: body ∧ Piece q) : cutTerms (p :: ps).flatten = p :: ps := by
    refine cutTerms_flatten (List.forall_mem_cons.2 ⟨hp.ne_nil, fun q hq => ?_⟩)
      (List.forall_mem_cons.2 ⟨hp.tail, fun q hq => ?_⟩) fun q hq d hd => ?_
    all_goals obtain ⟨c, body, rfl, hq⟩ := hps q hq
    · exact hq.ne_nil
    · exact hq.tail
    · cases hd
      exact isSign_signChar c
  cases terms with
  | nil => exact hcut (piece_leadingSign constant (Decimal.toString_ne_nil _) hdigits) (List.forall_mem_nil _)
  | cons t ts =>
    obtain ⟨hatom, hatoms⟩ := List.forall_mem_cons.1 hatoms
    obtain ⟨d, r, hd, -⟩ := factorChars_eq_cons hatom
    have hne : factorChars t ≠ [] := hd ▸ List.cons_ne_nil d r
    refine hcut (piece_leadingSign t.coeff hne (mem_factorChars hatom)) (List.forall_mem_append.2 ⟨?_, ?_⟩)
    · rw [List.forall_mem_map]
      exact fun u hu => ⟨u.coeff, factorChars u, rfl, piece_signChar _ (mem_factorChars (hatoms u hu))⟩
    · rw [constantPieces]
      split
      · exact List.forall_mem_nil _
      · exact List.forall_mem_singleton.2 ⟨constant, _, rfl, piece_signChar _ hdigits⟩

end Reading

theorem parse_text {f : Affine} (hf : f.Readable) (hprintable : f.Printable) {s : String} (hs : f.text = .ok s) :
    parse s = .ok f := by
  have hcut := cutTerms_pieces hf.atoms
  rw [← blankFree_text hf.atoms hs] at hcut
  rw [parse]
  split
  · next hnil =>
    rw [hnil] at hcut
    exact absurd hcut.symm (by unfold pieces; split <;> exact List.cons_ne_nil _ _)
  · rw [hcut, sumTerms_pieces hf hprintable]

/-- A canonical form over identifiers without the least word has a text, and reading it gives the form again:
neither direction overflows. -/
theorem parse_text_self {f : Affine} (hfits : f.Fits) (hcanonical : f.IsCanonical)
    (hatoms : ∀ a ∈ f.atoms, Name.isIdentifier a) (hconstant : f.constant ≠ Word.minValue)
    (hcoeffs : ∀ t ∈ f.terms, t.coeff ≠ Word.minValue) : ∃ s, f.text = .ok s ∧ parse s = .ok f := by
  have hprintable : f.Printable := ⟨hconstant, hcoeffs⟩
  obtain ⟨s, hs⟩ := exists_text hfits hprintable
  exact ⟨s, hs, parse_text ⟨⟨hfits, hcanonical⟩, .inl hprintable, hatoms⟩ hprintable hs⟩

theorem parse_text_self_extreme :
    let f : Affine := ⟨[⟨-1, "N"⟩, ⟨9223372036854775807, "_0"⟩, ⟨1, "i"⟩], -9223372036854775807⟩
    f.text = .ok "-N + 9223372036854775807*_0 + i - 9223372036854775807" ∧ ∃ s, f.text = .ok s ∧ parse s = .ok f := by
  intro f
  have hcanonical : f.IsCanonical := by unfold IsCanonical; decide +kernel
  exact ⟨by decide +kernel, parse_text_self ⟨by decide, by decide⟩ hcanonical (by decide +kernel) (by decide) (by decide)⟩

theorem eq_least_of_not_printable {f : Affine} (hf : f.Readable) (hleast : ¬ f.Printable) :
    f = ofInt Word.minValue := by
  have hterms := hf.printable.resolve_left hleast
  obtain ⟨terms, constant⟩ := f
  cases hterms
  rw [ofInt, Affine.mk.injEq]
  refine ⟨rfl, ?_⟩
  by_contra hne
  exact hleast ⟨hne, fun t ht => absurd ht List.not_mem_nil⟩

theorem not_parse_least {s : String} (hs : (ofInt Word.minValue).text = .ok s) (f : Affine) : parse s ≠ .ok f := by
  cases hs
  intro h
  cases h

theorem text_injective {f g : Affine} (hf : f.Readable) (hg : g.Readable) {s : String} (hs : f.text = .ok s)
    (hs' : g.text = .ok s) : f = g := by
  by_cases hprintable : f.Printable
  · by_cases hprintable' : g.Printable
    · exact Except.ok.inj ((parse_text hf hprintable hs).symm.trans (parse_text hg hprintable' hs'))
    · rw [eq_least_of_not_printable hg hprintable'] at hs'
      exact absurd (parse_text hf hprintable hs) (not_parse_least hs' f)
  · have hleast := eq_least_of_not_printable hf hprintable
    by_cases hprintable' : g.Printable
    · rw [hleast] at hs
      exact absurd (parse_text hg hprintable' hs') (not_parse_least hs g)
    · rw [hleast, eq_least_of_not_printable hg hprintable']

section Characters

def isTextChar (c : Char) : Bool := Name.isTail c || c == ' ' || c == '+' || c == '-' || c == '*'

theorem isTextChar_of_isTail {c : Char} (h : Name.isTail c) : isTextChar c := by simp [isTextChar, h]

theorem isTextChar_append {s t : String} (hs : ∀ c ∈ s.toList, isTextChar c) (ht : ∀ c ∈ t.toList, isTextChar c) :
    ∀ c ∈ (s ++ t).toList, isTextChar c := by
  rw [String.toList_append]
  exact List.forall_mem_append.2 ⟨hs, ht⟩

theorem isTextChar_toString (n : Int) : ∀ c ∈ (toString n).toList, isTextChar c := by
  rw [toString_eq]
  refine List.forall_mem_append.2 ⟨fun c hc => ?_, fun c hc => isTextChar_of_isTail (Name.isTail_of_mem_toString hc)⟩
  rw [leadingSign] at hc
  split at hc
  · obtain rfl := List.mem_singleton.1 hc
    rfl
  · cases hc

theorem isTextChar_termText {first : Bool} {t : Term} {s : String} (hatom : Name.isIdentifier t.atom)
    (h : termText first t = .ok s) : ∀ c ∈ s.toList, isTextChar c := by
  obtain ⟨m, -, h⟩ := bind_eq_ok.1 h
  cases h
  refine isTextChar_append (isTextChar_append ?_ ?_) fun c hc => isTextChar_of_isTail (Name.isTail_of_mem hatom c hc)
  · have hsign : ∀ s ∈ ["-", "", " - ", " + "], s.toList.all isTextChar = true := by decide
    refine List.all_eq_true.1 (hsign _ ?_)
    cases first <;> by_cases hneg : t.coeff < 0 <;> simp [hneg]
  · split
    · exact fun c hc => nomatch hc
    · exact isTextChar_append (isTextChar_toString m) (List.all_eq_true.1 (by decide))

theorem isTextChar_termsText {first : Bool} {ts : List Term} {s : String}
    (hatoms : ∀ t ∈ ts, Name.isIdentifier t.atom) (h : termsText first ts = .ok s) :
    ∀ c ∈ s.toList, isTextChar c := by
  induction ts generalizing first s with
  | nil =>
    cases h
    exact fun c hc => nomatch hc
  | cons t ts ih =>
    obtain ⟨hatom, hatoms⟩ := List.forall_mem_cons.1 hatoms
    obtain ⟨head, rest, hhead, hrest, rfl⟩ := bind₂_eq_ok.1 h
    exact isTextChar_append (isTextChar_termText hatom hhead) (ih hatoms hrest)

theorem isTextChar_constantText {k : Int} {s : String} (h : constantText k = .ok s) :
    ∀ c ∈ s.toList, isTextChar c := by
  rw [constantText] at h
  split at h
  · cases h
    exact fun c hc => nomatch hc
  · split at h
    · obtain ⟨m, -, h⟩ := bind_eq_ok.1 h
      cases h
      exact isTextChar_append (List.all_eq_true.1 (by decide)) (isTextChar_toString m)
    · cases h
      exact isTextChar_append (List.all_eq_true.1 (by decide)) (isTextChar_toString k)

theorem isTextChar_text {f : Affine} (hatoms : ∀ a ∈ f.atoms, Name.isIdentifier a) {s : String} (h : f.text = .ok s) :
    ∀ c ∈ s.toList, isTextChar c := by
  rw [text] at h
  split at h
  · cases h
    exact isTextChar_toString f.constant
  · obtain ⟨ts, k, hts, hk, rfl⟩ := bind₂_eq_ok.1 h
    exact isTextChar_append (isTextChar_termsText (List.forall_mem_map.1 hatoms) hts) (isTextChar_constantText hk)

theorem text_append_inj {f g : Affine} {t t' : String} {r s : List Char} (hf : f.Readable) (hg : g.Readable)
    (ht : f.text = .ok t) (ht' : g.text = .ok t') (hr : ∀ c ∈ r.head?, isTextChar c = false)
    (hs : ∀ c ∈ s.head?, isTextChar c = false) (h : t.toList ++ r = t'.toList ++ s) : f = g ∧ r = s := by
  obtain ⟨hsame, hrest⟩ := append_inj_of_stop (isTextChar_text hf.atoms ht) (isTextChar_text hg.atoms ht') hr hs h
  obtain rfl := String.toList_inj.1 hsame
  exact ⟨text_injective hf hg ht ht', hrest⟩

end Characters

end LoopNest.Affine

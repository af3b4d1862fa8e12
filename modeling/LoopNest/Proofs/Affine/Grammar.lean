import LoopNest.Proofs.Affine.Canonical
import LoopNest.Proofs.Affine.Text
import Mathlib.Algebra.Ring.Int.Defs
import Mathlib.Data.List.Infix

/-!
The grammar of affine texts. Without its blanks a text is a row of terms, each with a sign except perhaps the
first, and a term is a product of numbers and at most one name. Such texts are read as what they say, all others
are refused, and nothing else can happen unless a product or a sum of the numbers is no word.
-/

namespace LoopNest.Affine

open Text (blankFree splitWhere)

def IsNumber (w : List Char) : Prop :=
  w ≠ [] ∧ (∀ c ∈ w, Decimal.isDigit c) ∧ Decimal.valueOf w < 9223372036854775808

structure WrittenTerm where
  sign : Option Char
  factors : List (List Char)

namespace WrittenTerm

def chars (t : WrittenTerm) : List Char := t.sign.toList ++ ['*'].intercalate t.factors

structure WellFormed (t : WrittenTerm) : Prop where
  sign : ∀ c ∈ t.sign, isSign c
  nonempty : t.factors ≠ []
  factors : ∀ w ∈ t.factors, IsNumber w ∨ Name.isIdentifierChars w
  names : (t.factors.filter Name.isIdentifierChars).length ≤ 1

def unit (t : WrittenTerm) : Int := if t.sign = some '-' then -1 else 1

def factorValue (env : String → Int) (w : List Char) : Int :=
  if Name.isIdentifierChars w then env (String.ofList w) else Decimal.valueOf w

def value (t : WrittenTerm) (env : String → Int) : Int := t.unit * (t.factors.map (factorValue env)).prod

end WrittenTerm

/-- The text is a sum of these terms. -/
structure IsSum (ts : List WrittenTerm) (text : List Char) : Prop where
  nonempty : ts ≠ []
  wellFormed : ∀ t ∈ ts, t.WellFormed
  signs : ∀ t ∈ ts.tail, t.sign ≠ none
  chars : (ts.map WrittenTerm.chars).flatten = text

def sumValue (ts : List WrittenTerm) (env : String → Int) : Int := (ts.map fun t => t.value env).sum

section Numbers

def numbersOf (ws : List (List Char)) : List Int := ws.filterMap literal?

def namesOf (ws : List (List Char)) : List String := (ws.filter Name.isIdentifierChars).map String.ofList

theorem literal?_eq_some {w : List Char} {k : Int} :
    literal? w = some k ↔ IsNumber w ∧ k = (Decimal.valueOf w : Int) := by
  have hfits : Word.fits (Decimal.valueOf w : Int) = true ↔ Decimal.valueOf w < 9223372036854775808 := by
    rw [Word.fits_iff, Word.minValue, Word.maxValue]
    omega
  have hdigits : (w.isEmpty || !w.all Decimal.isDigit) = false ↔ w ≠ [] ∧ ∀ c ∈ w, Decimal.isDigit c := by simp
  rw [literal?, Decimal.unsigned?, IsNumber, ← and_assoc, ← hdigits, ← hfits]
  cases w.isEmpty || !w.all Decimal.isDigit with
  | true => exact iff_of_false (Option.some_ne_none k).symm fun h => Bool.noConfusion h.1.1
  | false =>
    rw [if_neg Bool.false_ne_true, Option.bind_some]
    split
    · next hword => exact ⟨fun h => ⟨⟨rfl, hword⟩, (Option.some.inj h).symm⟩, fun h => congrArg some h.2.symm⟩
    · next hword => exact iff_of_false (Option.some_ne_none k).symm fun h => hword h.1.2

theorem literal?_eq_none {w : List Char} : literal? w = none ↔ ¬ IsNumber w := by
  constructor
  · intro hnone hnumber
    rw [literal?_eq_some.2 ⟨hnumber, rfl⟩] at hnone
    cases hnone
  · intro h
    cases hsome : literal? w with
    | none => rfl
    | some k => exact absurd (literal?_eq_some.1 hsome).1 h

theorem isIdentifierChars_of_isNumber {w : List Char} (h : IsNumber w) : Name.isIdentifierChars w = false := by
  cases w with
  | nil => rfl
  | cons c r =>
    cases hc : Name.isLetter c with
    | true =>
      have hdigit := h.2.1 c List.mem_cons_self
      rw [Name.not_isDigit_of_isLetter hc] at hdigit
      cases hdigit
    | false => rw [Name.isIdentifierChars, hc, Bool.false_and]

theorem prod_factorValue (env : String → Int) {ws : List (List Char)}
    (h : ∀ w ∈ ws, IsNumber w ∨ Name.isIdentifierChars w) :
    (ws.map (WrittenTerm.factorValue env)).prod = (numbersOf ws).prod * ((namesOf ws).map env).prod := by
  induction ws with
  | nil => rfl
  | cons w ws ih =>
    obtain ⟨hw, hws⟩ := List.forall_mem_cons.1 h
    rw [List.map_cons, List.prod_cons, ih hws, WrittenTerm.factorValue]
    rcases hw with hnumber | hname
    · have hname := isIdentifierChars_of_isNumber hnumber
      have hliteral := literal?_eq_some.2 ⟨hnumber, rfl⟩
      simp [numbersOf, namesOf, hname, hliteral, Int.mul_assoc]
    · have hliteral : literal? w = none := by
        refine literal?_eq_none.2 fun hnumber => ?_
        rw [isIdentifierChars_of_isNumber hnumber] at hname
        cases hname
      simp only [numbersOf, namesOf, hname, hliteral, List.filterMap_cons, List.filter_cons, if_true, List.map_cons,
        List.prod_cons]
      rw [Int.mul_left_comm]

end Numbers

namespace WrittenTerm

variable {t : WrittenTerm}

def coefficient (t : WrittenTerm) : Int := t.unit * (numbersOf t.factors).prod

def atom (t : WrittenTerm) : Option String := (namesOf t.factors).head?

theorem WellFormed.value_eq (h : t.WellFormed) (env : String → Int) :
    t.value env = t.coefficient * (match t.atom with | some a => env a | none => 1) := by
  have hnames : (namesOf t.factors).length ≤ 1 := by
    rw [namesOf, List.length_map]
    exact h.names
  rw [value, prod_factorValue env h.factors, coefficient, atom, ← Int.mul_assoc]
  cases hn : namesOf t.factors with
  | nil => rfl
  | cons a as =>
    rw [hn, List.length_cons] at hnames
    obtain rfl := List.eq_nil_of_length_eq_zero (Nat.le_zero.1 (Nat.le_of_succ_le_succ hnames))
    simp

def ofChars : List Char → WrittenTerm
  | '+' :: body => ⟨some '+', splitWhere (· == '*') body⟩
  | '-' :: body => ⟨some '-', splitWhere (· == '*') body⟩
  | body => ⟨none, splitWhere (· == '*') body⟩

theorem intercalate_splitWhere (body : List Char) : ['*'].intercalate (splitWhere (· == '*') body) = body := by
  rw [Text.splitWhere_eq_splitOnP, ← List.splitOn_eq_splitOnP, List.intercalate_splitOn]

theorem chars_ofChars (w : List Char) : (ofChars w).chars = w := by
  fun_cases ofChars w <;> simp [chars, intercalate_splitWhere]

theorem splitSign_eq (w : List Char) : splitSign w = ((ofChars w).unit, ['*'].intercalate (ofChars w).factors) := by
  fun_cases splitSign w <;> simp [ofChars, unit, intercalate_splitWhere]

theorem splitWhere_intercalate_factors (w : List Char) :
    splitWhere (· == '*') (['*'].intercalate (ofChars w).factors) = (ofChars w).factors := by
  fun_cases ofChars w <;> simp only [intercalate_splitWhere]

theorem sign_ofChars {d : Char} (r : List Char) (h : isSign d) : (ofChars (d :: r)).sign ≠ none := by
  simp only [isSign, Bool.or_eq_true, beq_iff_eq] at h
  rcases h with rfl | rfl <;> exact Option.some_ne_none _

theorem WellFormed.mem_factor (h : t.WellFormed) : ∀ w ∈ t.factors, w ≠ [] ∧ ∀ c ∈ w, Name.isTail c := by
  intro w hw
  rcases h.factors w hw with hnumber | hname
  · exact ⟨hnumber.1, fun c hc => Name.isTail_of_isDigit (hnumber.2.1 c hc)⟩
  · have hname : Name.isIdentifier (String.ofList w) := by rwa [Name.isIdentifier, String.toList_ofList]
    obtain ⟨c, r, hw, -⟩ := Name.isIdentifier_iff.1 hname
    rw [String.toList_ofList] at hw
    exact ⟨hw ▸ List.cons_ne_nil c r, by simpa using Name.isTail_of_mem hname⟩

theorem WellFormed.mem_body (h : t.WellFormed) : ∀ c ∈ ['*'].intercalate t.factors, Name.isTail c ∨ c = '*' := by
  intro c hc
  rcases mem_of_mem_intercalate hc with hc | ⟨w, hw, hc⟩
  · exact .inr (List.mem_singleton.1 hc)
  · exact .inl ((h.mem_factor w hw).2 c hc)

theorem WellFormed.body_ne_nil (h : t.WellFormed) : ['*'].intercalate t.factors ≠ [] := by
  obtain ⟨w, ws, hws⟩ := List.exists_cons_of_ne_nil h.nonempty
  have hw := (h.mem_factor w (hws ▸ List.mem_cons_self)).1
  intro hnil
  rw [hws] at hnil
  cases ws with
  | nil => exact hw (by simpa using hnil)
  | cons v vs =>
    rw [List.intercalate_cons_cons, List.append_assoc] at hnil
    exact hw (List.append_eq_nil_iff.1 hnil).1

theorem WellFormed.splitWhere_body (h : t.WellFormed) :
    splitWhere (· == '*') (['*'].intercalate t.factors) = t.factors := by
  rw [Text.splitWhere_eq_splitOnP, ← List.splitOn_eq_splitOnP]
  refine List.splitOn_intercalate _ (fun w hw hstar => ?_) h.nonempty
  exact Name.ne_of_isTail ((h.mem_factor w hw).2 _ hstar) (by decide) rfl

theorem WellFormed.ofChars_chars (h : t.WellFormed) : ofChars t.chars = t := by
  obtain ⟨sign, factors⟩ := t
  have hbody := h.splitWhere_body
  cases sign with
  | some c =>
    have hc : c = '+' ∨ c = '-' := by simpa [isSign] using h.sign c rfl
    rcases hc with rfl | rfl <;> exact congrArg _ hbody
  | none =>
    obtain ⟨c, r, hc⟩ := List.exists_cons_of_ne_nil h.body_ne_nil
    have hnot := not_isSign (h.mem_body c (hc ▸ List.mem_cons_self))
    simp only [chars, Option.toList_none, List.nil_append] at *
    rw [hc] at hbody ⊢
    rw [ofChars.eq_def]
    split
    · next heq => cases heq; cases hnot
    · next heq => cases heq; cases hnot
    · rw [hbody]

theorem wellFormed_ofChars_iff (w : List Char) :
    (ofChars w).WellFormed ↔ (∀ v ∈ (ofChars w).factors, IsNumber v ∨ Name.isIdentifierChars v) ∧
      (namesOf (ofChars w).factors).length ≤ 1 := by
  have hsign : ∀ c ∈ (ofChars w).sign, isSign c := by
    fun_cases ofChars w <;> simp [isSign]
  have hnonempty : (ofChars w).factors ≠ [] := by
    fun_cases ofChars w <;> exact Text.splitWhere_ne_nil _ _
  rw [namesOf, List.length_map]
  exact ⟨fun h => ⟨h.factors, h.names⟩, fun h => ⟨hsign, hnonempty, h.1, h.2⟩⟩

end WrittenTerm

section Cutting

theorem exists_cutTerms (c : Char) (r : List Char) : ∃ body ws, cutTerms (c :: r) = (c :: body) :: ws ∧
    body ++ ws.flatten = r ∧ ∀ w ∈ ws, ∃ d v, w = d :: v ∧ isSign d := by
  induction r generalizing c with
  | nil => exact ⟨[], [], rfl, rfl, List.forall_mem_nil _⟩
  | cons d r ih =>
    obtain ⟨body, ws, hcut, hflatten, hsigns⟩ := ih d
    rw [cutTerms_cons_cons hcut]
    split
    · next hsign =>
      exact ⟨[], _, rfl, by simp [hflatten], List.forall_mem_cons.2 ⟨⟨d, body, rfl, hsign⟩, hsigns⟩⟩
    · exact ⟨d :: body, ws, rfl, by simp [hflatten], hsigns⟩

def written (text : List Char) : List WrittenTerm := (cutTerms text).map WrittenTerm.ofChars

theorem isSum_iff {ts : List WrittenTerm} {text : List Char} :
    IsSum ts text ↔ text ≠ [] ∧ ts = written text ∧ ∀ t ∈ written text, t.WellFormed := by
  constructor
  · intro h
    have hcut : cutTerms text = ts.map WrittenTerm.chars := by
      rw [← h.chars]
      -- no term is empty, and signs stand in front of a term, of every one but the first
      refine cutTerms_flatten (List.forall_mem_map.2 fun t ht => ?_) (List.forall_mem_map.2 fun t ht c hc => ?_) ?_
      · exact fun hnil => (h.wellFormed t ht).body_ne_nil (List.append_eq_nil_iff.1 hnil).2
      · have hbody := (h.wellFormed t ht).mem_body
        rw [WrittenTerm.chars] at hc
        cases hsign : t.sign with
        | some d =>
          rw [hsign] at hc
          exact not_isSign (hbody c hc)
        | none =>
          rw [hsign] at hc
          exact not_isSign (hbody c (List.mem_of_mem_tail hc))
      · rw [← List.map_tail, List.forall_mem_map]
        intro t ht c hc
        obtain ⟨d, hd⟩ := Option.ne_none_iff_exists'.1 (h.signs t ht)
        rw [WrittenTerm.chars, hd] at hc
        exact (h.wellFormed t (List.mem_of_mem_tail ht)).sign c (hd ▸ hc)
    have hwritten : written text = ts := by
      rw [written, hcut, List.map_map]
      exact (List.map_congr_left fun t ht => (h.wellFormed t ht).ofChars_chars).trans (List.map_id ts)
    refine ⟨fun hnil => ?_, hwritten.symm, hwritten ▸ h.wellFormed⟩
    rw [hnil] at hwritten
    exact h.nonempty hwritten.symm
  · rintro ⟨hne, rfl, hwf⟩
    obtain ⟨c, r, rfl⟩ := List.exists_cons_of_ne_nil hne
    obtain ⟨body, ws, hcut, hflatten, hsigns⟩ := exists_cutTerms c r
    have hchars : (written (c :: r)).map WrittenTerm.chars = (c :: body) :: ws := by
      rw [written, List.map_map, hcut]
      exact (List.map_congr_left fun w _ => WrittenTerm.chars_ofChars w).trans (List.map_id _)
    refine ⟨?_, hwf, ?_, ?_⟩
    · rw [written, hcut]
      exact List.cons_ne_nil _ _
    · rw [written, hcut, List.map_cons, List.tail_cons, List.forall_mem_map]
      intro w hw
      obtain ⟨d, v, rfl, hd⟩ := hsigns w hw
      exact WrittenTerm.sign_ofChars v hd
    · rw [hchars, List.flatten_cons, List.cons_append, hflatten]

theorem exists_isSum_iff {text : List Char} :
    (∃ ts, IsSum ts text) ↔ text ≠ [] ∧ ∀ t ∈ written text, t.WellFormed := by
  simp only [isSum_iff]
  exact ⟨fun ⟨_, hne, _, hwf⟩ => ⟨hne, hwf⟩, fun ⟨hne, hwf⟩ => ⟨_, hne, rfl, hwf⟩⟩

end Cutting

section Reading

def Ends {ε α : Type} (Good : α → Prop) (e : ε) (Bad Fits : Prop) (x : Outcome ε α) : Prop :=
  (∃ a, x = .ok a ∧ Good a) ∨ (x = Outcome.refuse e ∧ Bad) ∨ (x = .error (.fault .overflow) ∧ ¬ Fits)

variable {e : ParseError}

theorem parseFactors_ends (c : Int) (a : Option String) (ws : List (List Char)) :
    Ends (fun r : Int × Option String => (∀ w ∈ ws, IsNumber w ∨ Name.isIdentifierChars w) ∧
        r.1 = c * (numbersOf ws).prod ∧ a.toList ++ namesOf ws = r.2.toList) e
      (¬ ((∀ w ∈ ws, IsNumber w ∨ Name.isIdentifierChars w) ∧ (a.toList ++ namesOf ws).length ≤ 1))
      (∀ ns, ns <+: numbersOf ws → Word.fits (c * ns.prod) = true) (parseFactors e c a ws) := by
  induction ws generalizing c a with
  | nil => exact .inl ⟨(c, a), rfl, List.forall_mem_nil _, (Int.mul_one c).symm, List.append_nil _⟩
  | cons w ws ih =>
    rw [parseFactors]
    cases hliteral : literal? w with
    | some k =>
      -- a number: what is needed from here on is that the product with it is a word
      have hnumber := (literal?_eq_some.1 hliteral).1
      have hname := isIdentifierChars_of_isNumber hnumber
      have hnumbers : numbersOf (w :: ws) = k :: numbersOf ws := List.filterMap_cons_some hliteral
      have hnames : namesOf (w :: ws) = namesOf ws := by simp [namesOf, hname]
      simp only [List.forall_mem_cons, hnumber, true_or, true_and, hnumbers, hnames, List.prod_cons, ← Int.mul_assoc]
      by_cases hfits : Word.fits (c * k) = true
      · have hmul : Word.mul c k = .ok (c * k) := Word.checked_of_fits hfits
        rw [hmul, lift_ok, ok_bind]
        refine (ih (c * k) a).imp_right (Or.imp_right fun h => ⟨h.1, fun hall => h.2 fun ns hns => ?_⟩)
        rw [Int.mul_assoc]
        exact hall (k :: ns) (List.cons_prefix_cons.2 ⟨rfl, hns⟩)
      · have hmul : Word.mul c k = .error .overflow := if_neg hfits
        rw [hmul]
        refine .inr (.inr ⟨rfl, fun hall => hfits ?_⟩)
        simpa using hall [k] (List.cons_prefix_cons.2 ⟨rfl, List.nil_prefix⟩)
    | none =>
      have hnumber := literal?_eq_none.1 hliteral
      have hnumbers : numbersOf (w :: ws) = numbersOf ws := List.filterMap_cons_none hliteral
      simp only [List.forall_mem_cons, hnumber, false_or, hnumbers]
      split
      · next hname =>
        rw [Bool.and_eq_true, Option.isNone_iff_eq_none] at hname
        obtain ⟨hname, rfl⟩ := hname
        have hnames : namesOf (w :: ws) = String.ofList w :: namesOf ws := by simp [namesOf, hname]
        simp only [hname, true_and, hnames]
        exact ih c (some (String.ofList w))
      · next hname =>
        -- a second name, or no name at all
        refine .inr (.inl ⟨rfl, fun h => hname ?_⟩)
        obtain ⟨⟨hword, -⟩, hlength⟩ := h
        have hnames : namesOf (w :: ws) = String.ofList w :: namesOf ws := by simp [namesOf, hword]
        rw [hnames, List.length_append, List.length_cons] at hlength
        rw [hword, Bool.true_and, Option.isNone_iff_eq_none]
        cases a with
        | none => rfl
        | some b =>
          rw [Option.toList_some, List.length_singleton] at hlength
          omega

def WrittenTerm.ProductsFit (t : WrittenTerm) : Prop :=
  ∀ ns ∈ (numbersOf t.factors).inits, Word.fits (t.unit * ns.prod) = true

instance (t : WrittenTerm) : Decidable t.ProductsFit :=
  inferInstanceAs (Decidable (∀ ns ∈ (numbersOf t.factors).inits, Word.fits (t.unit * ns.prod) = true))

theorem readTerm_ends (w : List Char) :
    Ends (fun f => (WrittenTerm.ofChars w).WellFormed ∧ f.IsCanonical ∧
        ∀ env, f.value env = (WrittenTerm.ofChars w).value env) e
      (¬ (WrittenTerm.ofChars w).WellFormed) (WrittenTerm.ofChars w).ProductsFit (readTerm e w) := by
  have hwf := WrittenTerm.wellFormed_ofChars_iff w
  have hsplit := WrittenTerm.splitSign_eq w
  have hunit := fits_splitSign w
  rw [hsplit] at hunit
  rw [readTerm, hsplit]
  simp only [WrittenTerm.splitWhere_intercalate_factors]
  generalize WrittenTerm.ofChars w = t at *
  obtain ⟨⟨c, a⟩, hparse, hfactors, rfl, hnames⟩ | ⟨hparse, hbad⟩ | ⟨hparse, hfits⟩ :=
    parseFactors_ends (e := e) t.unit none t.factors
  · have hc := fits_of_parseFactors hunit hparse
    -- the product has been read, so there is one name in it at most
    have hlength : (namesOf t.factors).length ≤ 1 := by
      rw [← List.nil_append (namesOf t.factors), show [] ++ namesOf t.factors = a.toList from hnames]
      cases a <;> simp
    have hatom : t.atom = a := by
      rw [WrittenTerm.atom, show namesOf t.factors = a.toList from hnames]
      cases a <;> rfl
    have hgood := hwf.2 ⟨hfactors, hlength⟩
    rw [hparse, ok_bind]
    cases a with
    | some a =>
      obtain ⟨f, hf⟩ := exists_scale_var a hc
      refine .inl ⟨f, lift_eq_ok.2 hf, hgood, isCanonical_scale hf, fun env => ?_⟩
      rw [value_scale env hf, value_var, hgood.value_eq, hatom]
      rfl
    | none =>
      refine .inl ⟨_, rfl, hgood, isCanonical_ofInt _, fun env => ?_⟩
      rw [value_ofInt, hgood.value_eq, hatom]
      exact (Int.mul_one _).symm
  · rw [hparse]
    refine .inr (.inl ⟨rfl, fun h => hbad ?_⟩)
    exact hwf.1 h
  · rw [hparse]
    exact .inr (.inr ⟨rfl, fun h => hfits fun ns hns => h ns ((List.mem_inits ns _).2 hns)⟩)

def sumOf (a : Option String) (ts : List WrittenTerm) : Int :=
  ((ts.filter fun t => t.atom = a).map WrittenTerm.coefficient).sum

theorem sumOf_append (a : Option String) (ts us : List WrittenTerm) : sumOf a (ts ++ us) = sumOf a ts + sumOf a us := by
  rw [sumOf, List.filter_append, List.map_append, List.sum_append]
  rfl

theorem sumOf_cons (a : Option String) (t : WrittenTerm) (ts : List WrittenTerm) :
    sumOf a (t :: ts) = (if t.atom = a then t.coefficient else 0) + sumOf a ts := by
  by_cases h : t.atom = a <;> simp [sumOf, h]

theorem sumValue_append (ts us : List WrittenTerm) (env : String → Int) :
    sumValue (ts ++ us) env = sumValue ts env + sumValue us env := by
  rw [sumValue, List.map_append, List.sum_append]
  rfl

theorem sumValue_zero {ts : List WrittenTerm} (hts : ∀ t ∈ ts, t.WellFormed) :
    sumValue ts (fun _ => 0) = sumOf none ts := by
  induction ts with
  | nil => rfl
  | cons t ts ih =>
    obtain ⟨ht, hts⟩ := List.forall_mem_cons.1 hts
    rw [sumOf_cons, ← ih hts, sumValue, List.map_cons, List.sum_cons, ht.value_eq]
    cases t.atom <;> simp [sumValue]

theorem sumValue_indicator {ts : List WrittenTerm} (hts : ∀ t ∈ ts, t.WellFormed) (a : String) :
    sumValue ts (indicator a) = sumOf none ts + sumOf (some a) ts := by
  induction ts with
  | nil => rfl
  | cons t ts ih =>
    obtain ⟨ht, hts⟩ := List.forall_mem_cons.1 hts
    have hcons : sumValue (t :: ts) (indicator a) = t.value (indicator a) + sumValue ts (indicator a) := rfl
    rw [hcons, ih hts, sumOf_cons, sumOf_cons, ht.value_eq]
    cases t.atom with
    | none => simp [Int.add_assoc]
    | some b =>
      by_cases hb : b = a
      · simp [indicator, hb]
        omega
      · simp [indicator, hb]

structure Means (f : Affine) (ts : List WrittenTerm) : Prop where
  canonical : f.IsCanonical
  wellFormed : ∀ t ∈ ts, t.WellFormed
  value : ∀ env, f.value env = sumValue ts env

namespace Means

variable {f g h : Affine} {ts us : List WrittenTerm}

theorem constant_eq (hf : f.Means ts) : f.constant = sumOf none ts := by
  rw [← value_zero, hf.value, sumValue_zero hf.wellFormed]

theorem coeff_eq (hf : f.Means ts) {u : Term} (hu : u ∈ f.terms) : u.coeff = sumOf (some u.atom) ts := by
  have hvalue := (hf.canonical.mem_terms_iff.1 hu).2
  rw [hf.value, sumValue_indicator hf.wellFormed, hf.constant_eq] at hvalue
  omega

theorem add (hf : f.Means ts) (hg : g.Means us) (e : f.add g = .ok h) : h.Means (ts ++ us) where
  canonical := isCanonical_add e
  wellFormed := List.forall_mem_append.2 ⟨hf.wellFormed, hg.wellFormed⟩
  value env := by rw [value_add env e, hf.value, hg.value, sumValue_append]

theorem exists_add (hf : f.Means ts) (hg : g.Means us) (hfits : ∀ a, Word.fits (sumOf a (ts ++ us)) = true) :
    ∃ h, f.add g = .ok h := by
  refine Affine.exists_add hf.canonical hg.canonical ?_ fun t ht u hu same => ?_
  · rw [hf.constant_eq, hg.constant_eq, ← sumOf_append]
    exact hfits none
  · rw [hf.coeff_eq hu, hg.coeff_eq ht, same, ← sumOf_append]
    exact hfits _

end Means

theorem sumTerms_ends {acc : Affine} {done : List WrittenTerm} (hacc : acc.Means done) (ws : List (List Char)) :
    Ends (fun f => f.Means (done ++ ws.map WrittenTerm.ofChars)) e
      (∃ t ∈ ws.map WrittenTerm.ofChars, ¬ t.WellFormed)
      ((∀ t ∈ ws.map WrittenTerm.ofChars, t.ProductsFit) ∧
        ∀ ts, ts <+: ws.map WrittenTerm.ofChars → ∀ a, Word.fits (sumOf a (done ++ ts)) = true)
      (sumTerms e acc ws) := by
  induction ws generalizing acc done with
  | nil => exact .inl ⟨acc, rfl, by simpa using hacc⟩
  | cons w ws ih =>
    rw [sumTerms, List.map_cons]
    obtain ⟨g, hread, hwf, hcanonical, hvalue⟩ | ⟨hread, hbad⟩ | ⟨hread, hfits⟩ := readTerm_ends (e := e) w
    · have hg : g.Means [WrittenTerm.ofChars w] :=
        ⟨hcanonical, List.forall_mem_singleton.2 hwf, fun env => by simp [hvalue env, sumValue]⟩
      rw [hread, ok_bind, List.append_cons]
      cases hadd : acc.add g with
      | ok next =>
        rw [lift_ok, ok_bind]
        refine (ih (hacc.add hg hadd)).imp_right
          (Or.imp (fun h => ⟨h.1, ?_⟩) fun h => ⟨h.1, fun hall => h.2 ⟨?_, ?_⟩⟩)
        · obtain ⟨t, ht, hbad⟩ := h.2
          exact ⟨t, List.mem_cons_of_mem _ ht, hbad⟩
        · exact fun t ht => hall.1 t (List.mem_cons_of_mem _ ht)
        · intro ts hts
          rw [List.append_assoc]
          exact hall.2 _ (List.cons_prefix_cons.2 ⟨rfl, hts⟩)
      | error f =>
        -- the terms up to this one have a coefficient or a constant that is no word
        cases add_failsOnly acc g f hadd
        refine .inr (.inr ⟨rfl, fun hall => ?_⟩)
        have hfirst : [WrittenTerm.ofChars w] <+: WrittenTerm.ofChars w :: ws.map WrittenTerm.ofChars :=
          List.cons_prefix_cons.2 ⟨rfl, List.nil_prefix⟩
        obtain ⟨h, hh⟩ := hacc.exists_add hg (hall.2 _ hfirst)
        rw [hadd] at hh
        cases hh
    · rw [hread]
      exact .inr (.inl ⟨rfl, _, List.mem_cons_self, hbad⟩)
    · rw [hread]
      exact .inr (.inr ⟨rfl, fun hall => hfits (hall.1 _ List.mem_cons_self)⟩)

/-- From the left on, the products of the numbers in each term and the sums of the terms with one name are words. -/
structure NumbersFit (s : String) : Prop where
  products : ∀ t ∈ written (blankFree s), t.ProductsFit
  sums : ∀ ts ∈ (written (blankFree s)).inits, ∀ t ∈ ts, Word.fits (sumOf t.atom ts) = true

instance (s : String) : Decidable (NumbersFit s) :=
  decidable_of_iff ((∀ t ∈ written (blankFree s), t.ProductsFit) ∧
    ∀ ts ∈ (written (blankFree s)).inits, ∀ t ∈ ts, Word.fits (sumOf t.atom ts) = true)
    ⟨fun h => ⟨h.1, h.2⟩, fun h => ⟨h.products, h.sums⟩⟩

theorem NumbersFit.sumOf {s : String} (h : NumbersFit s) {ts : List WrittenTerm} (hts : ts <+: written (blankFree s))
    (a : Option String) : Word.fits (sumOf a ts) = true := by
  by_cases ha : ∃ t ∈ ts, t.atom = a
  · obtain ⟨t, ht, rfl⟩ := ha
    exact h.sums ts ((List.mem_inits ts _).2 hts) t ht
  · have hnone : ts.filter (fun t => t.atom = a) = [] :=
      List.filter_eq_nil_iff.2 fun t ht same => ha ⟨t, ht, of_decide_eq_true same⟩
    rw [Affine.sumOf, hnone]
    rfl

theorem means_zero : zero.Means [] := ⟨isCanonical_ofInt 0, List.forall_mem_nil _, value_ofInt 0⟩

theorem parse_ends (s : String) :
    Ends (fun f => f.Means (written (blankFree s)) ∧ ∃ ts, IsSum ts (blankFree s)) ⟨s⟩
      (¬ ∃ ts, IsSum ts (blankFree s)) (NumbersFit s) (parse s) := by
  rw [exists_isSum_iff, parse]
  split
  · next hnil => exact .inr (.inl ⟨rfl, fun h => h.1 hnil⟩)
  · next hne =>
    obtain ⟨f, hparse, hf⟩ | ⟨hparse, t, ht, hbad⟩ | ⟨hparse, hfits⟩ :=
      sumTerms_ends (e := ⟨s⟩) means_zero (cutTerms (blankFree s))
    · exact .inl ⟨f, hparse, hf, hne, hf.wellFormed⟩
    · exact .inr (.inl ⟨hparse, fun h => hbad (h.2 t ht)⟩)
    · exact .inr (.inr ⟨hparse, fun h => hfits ⟨h.products, fun ts hts a => h.sumOf hts a⟩⟩)

end Reading

/-- As long as the numbers of a text are words, it is read if and only if it is a sum, and refused with the text
itself otherwise. What is read is canonical and means the sum of the products written; evaluated on words, it is
that sum or overflows. -/
theorem parse_accepts_sums {s : String} (hfits : NumbersFit s) :
    ((∃ f, parse s = .ok f) ↔ ∃ ts, IsSum ts (blankFree s)) ∧
    (∀ f ts, parse s = .ok f → IsSum ts (blankFree s) → f.IsCanonical ∧ ∀ env,
      f.value env = sumValue ts env ∧
      (f.eval (fun a => some (env a)) = .ok (some (sumValue ts env)) ∨
        f.eval (fun a => some (env a)) = .error .overflow)) ∧
    ((¬ ∃ ts, IsSum ts (blankFree s)) → parse s = Outcome.refuse ⟨s⟩) := by
  obtain ⟨f, hparse, hf, hsum⟩ | ⟨hparse, hnone⟩ | ⟨-, hlarge⟩ := parse_ends s
  · refine ⟨iff_of_true ⟨f, hparse⟩ hsum, fun g ts hg hts => ?_, fun hnone => absurd hsum hnone⟩
    obtain rfl := Except.ok.inj (hparse.symm.trans hg)
    obtain ⟨-, rfl, -⟩ := isSum_iff.1 hts
    refine ⟨hf.canonical, fun env => ?_⟩
    rw [← hf.value env]
    exact ⟨rfl, eval_total f env⟩
  · refine ⟨iff_of_false (fun ⟨f, hf⟩ => ?_) hnone, fun f ts hf => ?_, fun _ => hparse⟩
    all_goals
      rw [hparse] at hf
      cases hf
  · exact absurd hfits hlarge

theorem parse_accepts_sums_repeated : NumbersFit "- 2*i *3 + 0 07 - i" ∧
    parse "- 2*i *3 + 0 07 - i" = .ok ⟨[⟨-7, "i"⟩], 7⟩ ∧ ∃ ts, IsSum ts (blankFree "- 2*i *3 + 0 07 - i") ∧
      sumValue ts (fun _ => 5) = -28 := by
  have hfits : NumbersFit "- 2*i *3 + 0 07 - i" := by decide +kernel
  have hparse : parse "- 2*i *3 + 0 07 - i" = .ok ⟨[⟨-7, "i"⟩], 7⟩ := by decide +kernel
  obtain ⟨haccepts, hmeans, -⟩ := parse_accepts_sums hfits
  obtain ⟨ts, hts⟩ := haccepts.1 ⟨_, hparse⟩
  obtain ⟨-, hvalue⟩ := hmeans _ ts hparse hts
  exact ⟨hfits, hparse, ts, hts, (hvalue fun _ => 5).1.symm.trans (by decide)⟩

end LoopNest.Affine

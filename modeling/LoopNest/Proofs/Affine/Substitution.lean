import LoopNest.Proofs.Affine.Canonical
import Mathlib.Tactic.Ring

namespace LoopNest.Affine

section Values

variable {f g : Affine} {m : String → Affine} {env χ : String → Option Int} {x y : Option Int}

theorem mem_atoms_of_bindVars (hg : f.bindVars m = .ok g) {b : String} (hb : b ∈ g.atoms) :
    ∃ a ∈ f.atoms, b ∈ (m a).atoms := by
  have hover : g.Over (f.atoms.flatMap fun a => (m a).atoms) :=
    over_bindVars (fun a ha c hc => List.mem_flatMap.2 ⟨a, ha, hc⟩) hg
  exact List.mem_flatMap.1 (hover b hb)

theorem eval_bindVars_of_some (hg : f.bindVars m = .ok g) (hχ : ∀ a ∈ f.atoms, (m a).eval env = .ok (χ a))
    (hx : g.eval env = .ok x) (hy : f.eval χ = .ok y) (hsome : y ≠ none) : x = y := by
  have hknown := (eval_ne_none_iff hy).1 hsome
  have hvalue : ∀ a ∈ f.atoms, orZero χ a = (m a).value (orZero env) := by
    intro a ha
    rcases eval_eq_ok (hχ a ha) with ⟨-, hnone⟩ | ⟨-, hv⟩
    · exact absurd hnone (hknown a ha)
    · simp [orZero, hv]
  have hgknown : ∀ b ∈ g.atoms, env b ≠ none := by
    intro b hb
    obtain ⟨a, ha, hba⟩ := mem_atoms_of_bindVars hg hb
    exact (eval_ne_none_iff (hχ a ha)).1 (hknown a ha) b hba
  rcases eval_eq_ok hx with ⟨⟨b, hb, hnone⟩, -⟩ | ⟨-, rfl⟩
  · exact absurd hnone (hgknown b hb)
  rcases eval_eq_ok hy with ⟨-, hnone⟩ | ⟨-, rfl⟩
  · exact absurd hnone hsome
  · rw [value_bindVars _ hg, value_congr_atoms hvalue]

theorem eval_bindVars_eq_iff (hg : f.bindVars m = .ok g) (hχ : ∀ a ∈ f.atoms, (m a).eval env = .ok (χ a))
    (hx : g.eval env = .ok x) (hy : f.eval χ = .ok y) :
    x = y ↔ (y = none → ∃ b ∈ g.atoms, env b = none) := by
  constructor
  · rintro rfl rfl
    by_contra hall
    exact (eval_ne_none_iff hx).2 (fun b hb hnone => hall ⟨b, hb, hnone⟩) rfl
  · intro h
    by_cases hnone : y = none
    · obtain ⟨b, hb, hbnone⟩ := h hnone
      rw [hnone]
      by_contra hsome
      exact (eval_ne_none_iff hx).1 hsome b hb hbnone
    · exact eval_bindVars_of_some hg hχ hx hy hnone

theorem eval_bindVars_of_known (hg : f.bindVars m = .ok g) (hχ : ∀ a ∈ f.atoms, (m a).eval env = .ok (χ a))
    (hx : g.eval env = .ok x) (hy : f.eval χ = .ok y) (hknown : ∀ a ∈ f.atoms, ∀ b ∈ (m a).atoms, env b ≠ none) :
    x = y ∧ y ≠ none := by
  have hsome : y ≠ none := (eval_ne_none_iff hy).2 fun a ha => (eval_ne_none_iff (hχ a ha)).2 (hknown a ha)
  exact ⟨eval_bindVars_of_some hg hχ hx hy hsome, hsome⟩

end Values

section Small

theorem exists_insertTerm_of_weight (ts : List Term) (t : Term)
    (h : termsWeight ts + t.coeff.natAbs < 9223372036854775808) :
    ∃ us, insertTerm ts t = .ok us ∧ termsWeight us ≤ termsWeight ts + t.coeff.natAbs := by
  induction ts with
  | nil => exact ⟨[t], rfl, by simp [termsWeight]⟩
  | cons u us ih =>
    rw [termsWeight] at h
    rw [insertTerm]
    split
    · exact ⟨_, rfl, by simp only [termsWeight]; omega⟩
    · split
      · have hadd : Word.add u.coeff t.coeff = .ok (u.coeff + t.coeff) := Word.checked_of_natAbs (by omega)
        refine ⟨⟨u.coeff + t.coeff, u.atom⟩ :: us, by rw [hadd]; rfl, ?_⟩
        simp only [termsWeight]
        omega
      · obtain ⟨rest, hrest, hle⟩ := ih (by omega)
        refine ⟨u :: rest, by rw [hrest]; rfl, ?_⟩
        simp only [termsWeight]
        omega

theorem exists_foldlM_insertTerm_of_weight (acc ts : List Term)
    (h : termsWeight acc + termsWeight ts < 9223372036854775808) :
    ∃ us, ts.foldlM insertTerm acc = .ok us ∧ termsWeight us ≤ termsWeight acc + termsWeight ts := by
  induction ts generalizing acc with
  | nil => exact ⟨acc, rfl, by simp [termsWeight]⟩
  | cons t ts ih =>
    rw [termsWeight] at h ⊢
    obtain ⟨next, hnext, hle⟩ := exists_insertTerm_of_weight acc t (by omega)
    obtain ⟨us, hus, hle'⟩ := ih next (by omega)
    exact ⟨us, by rw [List.foldlM_cons, hnext]; exact hus, by omega⟩

theorem termsWeight_filter_le (p : Term → Bool) (ts : List Term) : termsWeight (ts.filter p) ≤ termsWeight ts := by
  induction ts with
  | nil => simp
  | cons t ts ih =>
    rw [List.filter_cons]
    split
    · simp only [termsWeight]
      omega
    · simp only [termsWeight]
      omega

theorem exists_collect_of_weight (ts : List Term) (h : termsWeight ts < 9223372036854775808) :
    ∃ us, collect ts = .ok us ∧ termsWeight us ≤ termsWeight ts := by
  obtain ⟨sorted, hsorted, hle⟩ := exists_foldlM_insertTerm_of_weight [] ts (by simpa [termsWeight] using h)
  refine ⟨sorted.filter fun t => t.coeff != 0, by rw [collect, hsorted]; rfl, ?_⟩
  have hfilter := termsWeight_filter_le (fun t => t.coeff != 0) sorted
  rw [termsWeight] at hle
  omega

theorem termsWeight_append (ts us : List Term) : termsWeight (ts ++ us) = termsWeight ts + termsWeight us := by
  induction ts with
  | nil => simp [termsWeight]
  | cons t ts ih =>
    simp only [List.cons_append, termsWeight, ih]
    omega

theorem exists_add_of_weight (f g : Affine) (h : f.weight + g.weight < 9223372036854775808) :
    ∃ k, f.add g = .ok k ∧ k.weight ≤ f.weight + g.weight := by
  simp only [weight] at h ⊢
  have happend := termsWeight_append f.terms g.terms
  obtain ⟨ts, hts, hle⟩ := exists_collect_of_weight (f.terms ++ g.terms) (by omega)
  have hconstant : Word.add f.constant g.constant = .ok (f.constant + g.constant) :=
    Word.checked_of_natAbs (by omega)
  refine ⟨⟨ts, f.constant + g.constant⟩, bind₂_eq_ok.2 ⟨_, _, hconstant, hts, rfl⟩, ?_⟩
  simp only
  omega

theorem exists_scaleTerms_of_weight (k : Int) (ts : List Term)
    (h : termsWeight ts * k.natAbs < 9223372036854775808) :
    ∃ us, scaleTerms k ts = .ok us ∧ termsWeight us = termsWeight ts * k.natAbs := by
  induction ts with
  | nil => exact ⟨[], rfl, by simp [termsWeight]⟩
  | cons t ts ih =>
    rw [termsWeight, Nat.add_mul, ← Int.natAbs_mul] at h
    have hmul : Word.mul t.coeff k = .ok (t.coeff * k) := Word.checked_of_natAbs (by omega)
    obtain ⟨us, hus, hle⟩ := ih (by omega)
    refine ⟨⟨t.coeff * k, t.atom⟩ :: us, bind₂_eq_ok.2 ⟨_, _, hmul, hus, rfl⟩, ?_⟩
    rw [termsWeight, termsWeight, hle, Nat.add_mul, ← Int.natAbs_mul]

theorem exists_scale_of_weight (f : Affine) (k : Int) (h : f.weight * k.natAbs < 9223372036854775808) :
    ∃ g, f.scale k = .ok g ∧ g.weight ≤ f.weight * k.natAbs := by
  simp only [weight, Nat.add_mul, ← Int.natAbs_mul] at h ⊢
  obtain ⟨scaled, hscaled, hle⟩ := exists_scaleTerms_of_weight k f.terms (by omega)
  obtain ⟨ts, hts, hle'⟩ := exists_collect_of_weight scaled (by omega)
  have hmul : Word.mul f.constant k = .ok (f.constant * k) := Word.checked_of_natAbs (by omega)
  refine ⟨⟨ts, f.constant * k⟩, bind_eq_ok.2 ⟨scaled, hscaled, bind₂_eq_ok.2 ⟨_, _, hmul, hts, rfl⟩⟩, ?_⟩
  simp only
  omega

theorem exists_bindVarTerms_of_weight {m : String → Affine} {most : Nat} {ts : List Term}
    (hm : ∀ t ∈ ts, (m t.atom).weight ≤ most) (acc : Affine)
    (h : acc.weight + termsWeight ts * most < 9223372036854775808) : ∃ g, bindVarTerms m acc ts = .ok g := by
  induction ts generalizing acc with
  | nil => exact ⟨acc, rfl⟩
  | cons t ts ih =>
    obtain ⟨ht, hts⟩ := List.forall_mem_cons.1 hm
    have hterm : (m t.atom).weight * t.coeff.natAbs ≤ t.coeff.natAbs * most := by
      rw [Nat.mul_comm]
      exact Nat.mul_le_mul_left _ ht
    rw [termsWeight, Nat.add_mul] at h
    obtain ⟨scaled, hscaled, hle⟩ := exists_scale_of_weight (m t.atom) t.coeff (by omega)
    obtain ⟨next, hnext, hle'⟩ := exists_add_of_weight acc scaled (by omega)
    obtain ⟨g, hg⟩ := ih hts next (by omega)
    exact ⟨g, by rw [bindVarTerms, hscaled, ok_bind, hnext, ok_bind, hg]⟩

theorem exists_bindVars_of_weight {f : Affine} {m : String → Affine} {most : Nat} (hpos : 0 < most)
    (hm : ∀ a ∈ f.atoms, (m a).weight ≤ most) (h : f.weight * most < 9223372036854775808) :
    ∃ g, f.bindVars m = .ok g := by
  have hconstant : f.constant.natAbs ≤ f.constant.natAbs * most := Nat.le_mul_of_pos_right _ hpos
  rw [weight, Nat.add_mul] at h
  apply exists_bindVarTerms_of_weight (fun t ht => hm _ (List.mem_map_of_mem ht)) (ofInt f.constant)
  simp only [weight, ofInt, termsWeight]
  omega

end Small

section Refusals

variable {ε : Type} {n : String → Outcome ε Affine} {m : String → Affine}

theorem bindTerms_append {ts : List Term} (hts : ∀ t ∈ ts, n t.atom = .ok (m t.atom)) (acc : Affine)
    (rest : List Term) :
    bindTerms n acc (ts ++ rest) = (liftM (bindVarTerms m acc ts) >>= fun g => bindTerms n g rest) := by
  induction ts generalizing acc with
  | nil => rfl
  | cons t ts ih =>
    obtain ⟨ht, hts⟩ := List.forall_mem_cons.1 hts
    rw [List.cons_append, bindTerms, bindVarTerms, ht, ok_bind]
    cases hscale : (m t.atom).scale t.coeff with
    | error e => rfl
    | ok scaled =>
      simp only [lift_ok, ok_bind]
      cases hadd : acc.add scaled with
      | error e => rfl
      | ok next =>
        simp only [lift_ok, ok_bind]
        exact ih hts next

theorem tryBind_eq_bindVars {f : Affine} (h : ∀ a ∈ f.atoms, n a = .ok (m a)) :
    f.tryBind n = liftM (f.bindVars m) := by
  have happend := bindTerms_append (fun t ht => h _ (List.mem_map_of_mem ht)) (ofInt f.constant) []
  rw [List.append_nil] at happend
  rw [tryBind, happend, bindVars]
  cases bindVarTerms m (ofInt f.constant) f.terms <;> rfl

theorem tryBind_eq_error {f g : Affine} {before after : List Term} {t : Term} {e : Failure ε}
    (hterms : f.terms = before ++ t :: after) (hbefore : ∀ u ∈ before, n u.atom = .ok (m u.atom))
    (ht : n t.atom = .error e) (hg : bindVars ⟨before, f.constant⟩ m = .ok g) : f.tryBind n = .error e := by
  have hprefix : bindVarTerms m (ofInt f.constant) before = .ok g := hg
  rw [tryBind, hterms, bindTerms_append hbefore, hprefix, lift_ok, ok_bind, bindTerms, ht]
  rfl

end Refusals

section Multiples

def multiple (f : Affine) (a : String) : Int := termsValue (indicator a) f.terms

theorem value_indicator (f : Affine) (a : String) : f.value (indicator a) = f.constant + f.multiple a := rfl

theorem IsCanonical.coefficient_eq {f : Affine} (hf : f.IsCanonical) (a : String) : f.coefficient a = f.multiple a := by
  rw [coefficient, multiple]
  split
  · next t ht =>
    have hatom : t.atom = a := by simpa using List.find?_some ht
    rw [← hatom, termsValue_indicator hf.1 (List.mem_of_find?_eq_some ht)]
  · next hnone =>
    have hfresh : a ∉ f.terms.map Term.atom := by
      intro ha
      obtain ⟨t, ht, rfl⟩ := List.mem_map.1 ha
      simpa using List.find?_eq_none.1 hnone t ht
    rw [termsValue_indicator_of_not_mem hfresh]

theorem termsValue_update_add (ts : List Term) (env : String → Int) (a : String) (v : Int) :
    termsValue (Function.update env a v) ts = termsValue env ts + termsValue (indicator a) ts * (v - env a) := by
  induction ts with
  | nil => simp [termsValue]
  | cons t ts ih =>
    simp only [termsValue, ih]
    by_cases h : t.atom = a
    · subst h
      simp only [Function.update_self, indicator, if_true]
      ring
    · simp only [Function.update_of_ne h, indicator, h, if_false]
      ring

theorem value_update (f : Affine) (env : String → Int) (a : String) (v : Int) :
    f.value (Function.update env a v) = f.value env + f.multiple a * (v - env a) := by
  rw [value, value, multiple, termsValue_update_add, Int.add_assoc]

end Multiples

/-- The form `h` is `f` with `g` in the place of every multiple of an atom, and with nothing else changed. That `g`
may have the atom again makes no difference. -/
structure Substituted (f : Affine) (a : String) (g h : Affine) : Prop where
  canonical : h.IsCanonical
  constant : h.constant = f.constant + f.multiple a * g.constant
  coefficient (b : String) : h.coefficient b = (if b = a then 0 else f.multiple b) + f.multiple a * g.multiple b
  value (env : String → Int) : h.value env = f.value (Function.update env a (g.value env))

theorem value_substitute {f g h : Affine} {a : String} (hs : f.substitute a g = .ok h) (env : String → Int) :
    h.value env = f.value (Function.update env a (g.value env)) := by
  rw [value_bindVars env hs]
  congr 1
  funext x
  by_cases hx : x = a
  · subst hx
    simp
  · simp [hx, value_var]

theorem substituted {f g h : Affine} {a : String} (hs : f.substitute a g = .ok h) : f.Substituted a g h := by
  have hcanonical : h.IsCanonical := isCanonical_bindVars hs
  have hconstant : h.constant = f.constant + f.multiple a * g.constant := by
    rw [← value_zero h, value_substitute hs, value_update, value_zero, value_zero, Int.sub_zero]
  refine ⟨hcanonical, hconstant, fun b => ?_, value_substitute hs⟩
  have hvalue := value_substitute hs (indicator b)
  rw [value_update, value_indicator, value_indicator, value_indicator, hconstant] at hvalue
  rw [hcanonical.coefficient_eq]
  by_cases hb : b = a
  · subst hb
    simp only [indicator, if_true, Int.mul_sub, Int.mul_add, Int.mul_one] at hvalue ⊢
    omega
  · simp only [indicator, Ne.symm hb, hb, if_false, Int.mul_sub, Int.mul_add, Int.mul_zero] at hvalue ⊢
    omega

/-- Forms are put in the place of atoms all at once. What comes out is canonical, and a value that the form has over
the values of what was put in is its value; only where some of these have none, and every atom without a value
cancels, has it a value that the form has not. Nothing but an overflow is in the way, and none occurs while the
numbers are small. Where atoms can be refused, the first refusal decides, and without one the outcome is the same. One
form in the place of one atom changes the multiples of that atom and no others. -/
theorem substitution_simultaneous (f : Affine) (m : String → Affine) :
    (∀ g, f.bindVars m = .ok g → g.IsCanonical ∧ ∀ env χ x y, (∀ a ∈ f.atoms, (m a).eval env = .ok (χ a)) →
      g.eval env = .ok x → f.eval χ = .ok y →
        ((∀ a ∈ f.atoms, ∀ b ∈ (m a).atoms, env b ≠ none) → x = y ∧ y ≠ none) ∧ (y ≠ none → x = y) ∧
        (x = y ↔ (y = none → ∃ b ∈ g.atoms, env b = none))) ∧
    (FailsOnlyBy .overflow (f.bindVars m) ∧ (∀ env, FailsOnlyBy .overflow (f.eval env)) ∧
      ∀ most, 0 < most → (∀ a ∈ f.atoms, (m a).weight ≤ most) → f.weight * most < 9223372036854775808 →
        ∃ g, f.bindVars m = .ok g) ∧
    (∀ (ε : Type) (n : String → Outcome ε Affine),
      ((∀ a ∈ f.atoms, n a = .ok (m a)) → f.tryBind n = liftM (f.bindVars m)) ∧
      ∀ before t after e, f.terms = before ++ t :: after → (∀ u ∈ before, n u.atom = .ok (m u.atom)) →
        n t.atom = .error e → ∀ g, bindVars ⟨before, f.constant⟩ m = .ok g → f.tryBind n = .error e) ∧
    ∀ a g h, f.substitute a g = .ok h → f.Substituted a g h := by
  refine ⟨fun g hg => ⟨isCanonical_bindVars hg, fun env χ x y hχ hx hy => ⟨?_, ?_, ?_⟩⟩, ⟨?_, ?_, ?_⟩,
    fun ε n => ⟨?_, ?_⟩, ?_⟩
  · exact eval_bindVars_of_known hg hχ hx hy
  · exact eval_bindVars_of_some hg hχ hx hy
  · exact eval_bindVars_eq_iff hg hχ hx hy
  · exact bindVars_failsOnly f m
  · exact eval_failsOnly f
  · exact fun most hpos hm h => exists_bindVars_of_weight hpos hm h
  · exact tryBind_eq_bindVars
  · exact fun before t after e hterms hbefore ht g hg => tryBind_eq_error hterms hbefore ht hg
  · exact fun a g h hs => substituted hs

namespace Crossed

def form : Affine := ⟨[⟨8, "i0"⟩, ⟨1, "i1"⟩], -3⟩

def forms (a : String) : Affine := if a = "i0" then ⟨[⟨2, "a"⟩, ⟨1, "i1"⟩], 0⟩ else ⟨[⟨1, "i0"⟩], -1⟩

def crossed : Affine := ⟨[⟨16, "a"⟩, ⟨1, "i0"⟩, ⟨8, "i1"⟩], -4⟩

def values (a : String) : Option Int := if a = "a" then some 1 else if a = "i0" then some 2 else some 3

def indices (a : String) : Option Int := if a = "i0" then some 5 else some 1

def firstOnly (a : String) : Outcome String Affine := if a = "i0" then .ok (forms a) else Outcome.refuse a

end Crossed

open Crossed in
theorem substitution_simultaneous_crossed :
    form.bindVars forms = .ok crossed ∧ crossed.IsCanonical ∧
    crossed.eval values = .ok (some 38) ∧ form.eval indices = .ok (some 38) ∧
    form.tryBind firstOnly = Outcome.refuse "i1" ∧
    form.Substituted "i1" crossed ⟨[⟨16, "a"⟩, ⟨9, "i0"⟩, ⟨8, "i1"⟩], -7⟩ := by
  have hbound : form.bindVars forms = .ok crossed := by decide +kernel
  have hindices : ∀ a ∈ form.atoms, (forms a).eval values = .ok (indices a) := by decide +kernel
  obtain ⟨x, hcrossed⟩ : ∃ x, crossed.eval values = .ok x := ⟨some 38, by decide +kernel⟩
  have hform : form.eval indices = .ok (some 38) := by decide +kernel
  have hfirst : bindVars ⟨[⟨8, "i0"⟩], form.constant⟩ forms = .ok ⟨[⟨16, "a"⟩, ⟨8, "i1"⟩], -3⟩ := by decide +kernel
  have hsubstitute : form.substitute "i1" crossed = .ok ⟨[⟨16, "a"⟩, ⟨9, "i0"⟩, ⟨8, "i1"⟩], -7⟩ := by decide +kernel
  obtain ⟨hputs, -, hrefusals, hsubstituted⟩ := substitution_simultaneous form forms
  obtain ⟨hcanonical, hvalues⟩ := hputs crossed hbound
  obtain ⟨-, hsame, -⟩ := hvalues values indices _ _ hindices hcrossed hform
  rw [hsame (by simp)] at hcrossed
  refine ⟨hbound, hcanonical, hcrossed, hform, ?_, hsubstituted _ _ _ hsubstitute⟩
  exact (hrefusals String firstOnly).2 [⟨8, "i0"⟩] ⟨1, "i1"⟩ [] _ rfl (by simp [firstOnly]) rfl _ hfirst

/-- Put into `i - x`, the form `x` cancels it: what is left has a value where `x` has none. -/
theorem cancelled_atom_unread :
    (⟨[⟨1, "i"⟩, ⟨-1, "x"⟩], 0⟩ : Affine).bindVars (fun _ => var "x") = .ok zero ∧
    zero.eval (fun _ => none) = .ok (some 0) ∧ (var "x").eval (fun _ => none) = .ok none ∧
    (⟨[⟨1, "i"⟩, ⟨-1, "x"⟩], 0⟩ : Affine).eval (fun _ => none) = .ok none := by decide +kernel

end LoopNest.Affine

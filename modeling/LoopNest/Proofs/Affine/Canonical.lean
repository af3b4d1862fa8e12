import LoopNest.Affine.Lemmas
import LoopNest.Proofs.Affine.Renaming
import LoopNest.Proofs.Kernel.Weight
import Mathlib.Data.List.Perm.Lattice
import Mathlib.Data.List.Sort

namespace LoopNest.Affine

section Separation

def indicator (a : String) : String → Int := fun b => if b = a then 1 else 0

theorem termsValue_zero (ts : List Term) : termsValue (fun _ => 0) ts = 0 := by
  induction ts with
  | nil => rfl
  | cons t ts ih => simp [termsValue, ih]

theorem value_zero (f : Affine) : f.value (fun _ => 0) = f.constant := by
  simp [value, termsValue_zero]

theorem termsValue_indicator_of_not_mem {a : String} {ts : List Term} (h : a ∉ ts.map Term.atom) :
    termsValue (indicator a) ts = 0 := by
  induction ts with
  | nil => rfl
  | cons t ts ih =>
    simp only [List.map_cons, List.mem_cons, not_or] at h
    simp [termsValue, indicator, Ne.symm h.1, ih h.2]

theorem termsValue_indicator {ts : List Term} (hs : Sorted ts) {t : Term} (ht : t ∈ ts) :
    termsValue (indicator t.atom) ts = t.coeff := by
  induction ts with
  | nil => cases ht
  | cons u ts ih =>
    obtain ⟨hu, hts⟩ := List.pairwise_cons.1 hs
    by_cases h : t = u
    · subst h
      have hrest : t.atom ∉ ts.map Term.atom := by
        intro hmem
        obtain ⟨v, hv, same⟩ := List.mem_map.1 hmem
        exact String.ne_of_lt (hu v hv) same.symm
      simp [termsValue, indicator, termsValue_indicator_of_not_mem hrest]
    · have ht : t ∈ ts := (List.mem_cons.1 ht).resolve_left h
      have hne : u.atom ≠ t.atom := String.ne_of_lt (hu t ht)
      simp [termsValue, indicator, hne, ih hts ht]

theorem IsCanonical.mem_terms_iff {f : Affine} (hf : f.IsCanonical) {t : Term} :
    t ∈ f.terms ↔ t.coeff ≠ 0 ∧ f.value (indicator t.atom) = f.constant + t.coeff := by
  simp only [value, Int.add_right_inj]
  constructor
  · intro ht
    exact ⟨hf.2 t ht, termsValue_indicator hf.1 ht⟩
  · rintro ⟨hne, hvalue⟩
    have hatom : t.atom ∈ f.terms.map Term.atom := by
      by_contra h
      exact hne (by rw [← hvalue, termsValue_indicator_of_not_mem h])
    obtain ⟨u, hu, same⟩ := List.mem_map.1 hatom
    have hcoeff : u.coeff = t.coeff := by rw [← hvalue, ← same, termsValue_indicator hf.1 hu]
    have : u = t := by
      cases u
      cases t
      simp_all
    exact this ▸ hu

theorem Sorted.nodup {ts : List Term} (h : Sorted ts) : ts.Nodup := by
  apply List.Pairwise.imp _ h
  rintro t u lt rfl
  exact String.lt_irrefl _ lt

theorem Sorted.eq_of_mem_iff {ts us : List Term} (hts : Sorted ts) (hus : Sorted us)
    (h : ∀ t, t ∈ ts ↔ t ∈ us) : ts = us := by
  apply List.Perm.eq_of_pairwise _ hts hus ((List.perm_ext_iff_of_nodup hts.nodup hus.nodup).2 h)
  intro t u _ _ lt gt
  exact absurd (String.lt_trans lt gt) (String.lt_irrefl _)

theorem IsCanonical.eq_of_value {f g : Affine} (hf : f.IsCanonical) (hg : g.IsCanonical)
    (h : ∀ env, f.value env = g.value env) : f = g := by
  have hconstant : f.constant = g.constant := by rw [← value_zero f, ← value_zero g, h]
  have hterms : f.terms = g.terms := by
    apply Sorted.eq_of_mem_iff hf.1 hg.1
    intro t
    rw [hf.mem_terms_iff, hg.mem_terms_iff, h, hconstant]
  cases f
  cases g
  simp_all

end Separation

section Evaluation

variable {known : String → Option Int} {env : String → Int}

def orZero (env : String → Option Int) (a : String) : Int := (env a).getD 0

theorem evalTerms_failsOnly (env : String → Option Int) (total : Int) (ts : List Term) :
    FailsOnlyBy .overflow (evalTerms env total ts) := by
  induction ts generalizing total with
  | nil => exact .ok _
  | cons t ts ih =>
    rw [evalTerms]
    split
    · exact .ok _
    · exact (Word.checked_failsOnly _).bind fun _ _ => (Word.checked_failsOnly _).bind fun _ _ => ih _

theorem eval_failsOnly (f : Affine) (env : String → Option Int) : FailsOnlyBy .overflow (f.eval env) :=
  evalTerms_failsOnly env _ _

theorem evalTerms_eq_ok {total : Int} {ts : List Term} {o : Option Int} (h : evalTerms known total ts = .ok o) :
    (∃ t ∈ ts, known t.atom = none) ∧ o = none ∨
      (∀ t ∈ ts, known t.atom ≠ none) ∧ o = some (total + termsValue (orZero known) ts) := by
  induction ts generalizing total with
  | nil =>
    cases h
    exact .inr ⟨fun _ h => absurd h List.not_mem_nil, by simp [termsValue]⟩
  | cons t ts ih =>
    rw [evalTerms] at h
    split at h
    · next hnone =>
      cases h
      exact .inl ⟨⟨t, List.mem_cons_self, hnone⟩, rfl⟩
    · next v hsome =>
      obtain ⟨p, hp, h⟩ := bind_eq_ok.1 h
      obtain ⟨next, hnext, h⟩ := bind_eq_ok.1 h
      obtain ⟨rfl, -⟩ := Word.mul_eq_ok.1 hp
      obtain ⟨rfl, -⟩ := Word.add_eq_ok.1 hnext
      rcases ih h with ⟨⟨u, hu, hnone⟩, ho⟩ | ⟨hall, ho⟩
      · exact .inl ⟨⟨u, List.mem_cons_of_mem t hu, hnone⟩, ho⟩
      · refine .inr ⟨List.forall_mem_cons.2 ⟨by simp [hsome], hall⟩, ?_⟩
        have hv : orZero known t.atom = v := by simp [orZero, hsome]
        rw [ho, termsValue, hv, Int.add_assoc]

theorem eval_eq_ok {f : Affine} {o : Option Int} (h : f.eval known = .ok o) :
    (∃ a ∈ f.atoms, known a = none) ∧ o = none ∨
      (∀ a ∈ f.atoms, known a ≠ none) ∧ o = some (f.value (orZero known)) := by
  have hterms := evalTerms_eq_ok h
  simpa only [atoms, List.mem_map, exists_exists_and_eq_and, forall_exists_index, and_imp,
    forall_apply_eq_imp_iff₂, value] using hterms

theorem eval_ne_none_iff {f : Affine} {o : Option Int} (h : f.eval known = .ok o) :
    o ≠ none ↔ ∀ a ∈ f.atoms, known a ≠ none := by
  rcases eval_eq_ok h with ⟨⟨a, ha, hnone⟩, rfl⟩ | ⟨hall, rfl⟩
  · exact iff_of_false (fun h => h rfl) fun hall => hall a ha hnone
  · exact iff_of_true (by simp) hall

theorem eval_total (f : Affine) (env : String → Int) :
    f.eval (fun a => some (env a)) = .ok (some (f.value env)) ∨
      f.eval (fun a => some (env a)) = .error .overflow := by
  cases h : f.eval fun a => some (env a) with
  | error e => exact .inr (congrArg _ (eval_failsOnly f _ e h))
  | ok o =>
    rcases eval_eq_ok h with ⟨⟨a, -, hnone⟩, -⟩ | ⟨-, rfl⟩
    · cases hnone
    · exact .inl rfl

theorem exists_evalTerms (total : Int) (ts : List Term)
    (h : total.natAbs + termsMagnitude env ts < 9223372036854775808) :
    ∃ n, evalTerms (fun a => some (env a)) total ts = .ok (some n) := by
  induction ts generalizing total with
  | nil => exact ⟨total, rfl⟩
  | cons t ts ih =>
    rw [termsMagnitude] at h
    have hmul : Word.mul t.coeff (env t.atom) = .ok _ := Word.checked_of_natAbs (by omega)
    have hadd : Word.add total (t.coeff * env t.atom) = .ok _ := Word.checked_of_natAbs (by omega)
    obtain ⟨n, hn⟩ := ih (total + t.coeff * env t.atom) (by omega)
    refine ⟨n, ?_⟩
    simp only [evalTerms]
    rw [hmul, ok_bind, hadd, ok_bind, hn]

theorem eval_of_magnitude {f : Affine} (h : f.magnitude env < 9223372036854775808) :
    f.eval (fun a => some (env a)) = .ok (some (f.value env)) := by
  obtain ⟨n, hn⟩ := exists_evalTerms f.constant f.terms h
  rw [← eval_eq_some env hn]
  exact hn

end Evaluation

/-- The form is put together by these operations and none of them overflowed. What the same operations make of the
integers that stand for the atoms is the second argument. -/
inductive Builds : Affine → ((String → Int) → Int) → Prop
  | ofInt (c : Int) : Builds (ofInt c) fun _ => c
  | var (a : String) : Builds (var a) fun env => env a
  | parse {s : String} {f : Affine} (h : parse s = .ok f) : Builds f f.value
  | add {f g k : Affine} {φ ψ : (String → Int) → Int} (hf : Builds f φ) (hg : Builds g ψ) (h : f.add g = .ok k) :
    Builds k fun env => φ env + ψ env
  | sub {f g k : Affine} {φ ψ : (String → Int) → Int} (hf : Builds f φ) (hg : Builds g ψ) (h : f.sub g = .ok k) :
    Builds k fun env => φ env - ψ env
  | scale {f g : Affine} {φ : (String → Int) → Int} {k : Int} (hf : Builds f φ) (h : f.scale k = .ok g) :
    Builds g fun env => φ env * k
  | neg {f g : Affine} {φ : (String → Int) → Int} (hf : Builds f φ) (h : f.neg = .ok g) : Builds g fun env => -φ env
  | addConstant {f g : Affine} {φ : (String → Int) → Int} {k : Int} (hf : Builds f φ)
    (h : f.addConstant k = .ok g) : Builds g fun env => φ env + k
  | substitute {f g k : Affine} {φ ψ : (String → Int) → Int} {a : String} (hf : Builds f φ) (hg : Builds g ψ)
    (h : f.substitute a g = .ok k) : Builds k fun env => φ (Function.update env a (ψ env))
  | bindVars {f g : Affine} {φ : (String → Int) → Int} {m : String → Affine} {χ : String → (String → Int) → Int}
    (hf : Builds f φ) (hm : ∀ a ∈ f.atoms, Builds (m a) (χ a)) (h : f.bindVars m = .ok g) :
    Builds g fun env => φ fun a => χ a env

namespace Builds

variable {f : Affine} {φ : (String → Int) → Int}

theorem isCanonical (h : Builds f φ) : f.IsCanonical := by
  induction h with
  | ofInt c => exact isCanonical_ofInt c
  | var a => exact isCanonical_var a
  | parse h => exact (normal_of_parse h).canonical
  | add _ _ h => exact isCanonical_add h
  | sub _ _ h =>
    obtain ⟨n, _, h⟩ := bind_eq_ok.1 h
    exact isCanonical_add h
  | scale _ h => exact isCanonical_scale h
  | neg _ h => exact isCanonical_scale h
  | addConstant _ h ih => exact isCanonical_addConstant ih h
  | substitute _ _ h => exact isCanonical_bindVars h
  | bindVars _ _ h => exact isCanonical_bindVars h

theorem value_eq (h : Builds f φ) (env : String → Int) : f.value env = φ env := by
  induction h generalizing env with
  | ofInt c => exact value_ofInt c env
  | var a => exact value_var a env
  | parse => rfl
  | add _ _ h ihf ihg => rw [value_add env h, ihf, ihg]
  | sub _ _ h ihf ihg => rw [value_sub env h, ihf, ihg]
  | scale _ h ih => rw [value_scale env h, ih, Int.mul_comm]
  | neg _ h ih => rw [value_neg env h, ih]
  | addConstant _ h ih => rw [value_addConstant env h, ih]
  | @substitute f g _ φ ψ a _ _ h ihf ihg =>
    rw [value_bindVars env h, ihf]
    congr 1
    funext x
    -- all other atoms stand for themselves
    by_cases hx : x = a
    · subst hx
      simp [ihg]
    · simp [hx, value_var]
  | @bindVars f _ φ m χ _ _ h ihf ihm =>
    calc
      _ = f.value fun a => (m a).value env := value_bindVars env h
      _ = f.value fun a => χ a env := value_congr_atoms fun a ha => ihm a ha env
      _ = φ fun a => χ a env := ihf _

end Builds

/-- Forms that are put together by the operations are canonical, and evaluating one does on 64-bit words what the
operations do on integers, unless a step overflows, which it does not while the terms are small. Canonical forms
are equal exactly when they have the same values. -/
theorem canonical_extensional :
    (∀ f φ, Builds f φ → f.IsCanonical ∧ ∀ env,
      f.value env = φ env ∧
      (f.eval (fun a => some (env a)) = .ok (some (φ env)) ∨
        f.eval (fun a => some (env a)) = .error .overflow) ∧
      (f.magnitude env < 9223372036854775808 → f.eval (fun a => some (env a)) = .ok (some (φ env)))) ∧
    ∀ f g : Affine, f.IsCanonical → g.IsCanonical → (f = g ↔ ∀ env, f.value env = g.value env) := by
  constructor
  · intro f φ h
    refine ⟨h.isCanonical, fun env => ?_⟩
    rw [← h.value_eq env]
    exact ⟨rfl, eval_total f env, eval_of_magnitude⟩
  · intro f g hf hg
    constructor
    · rintro rfl _
      rfl
    · exact hf.eq_of_value hg

theorem canonical_extensional_cancelled : ∃ f g k : Affine, ∃ φ, parse "8*i0 + i1 - 3" = .ok f ∧
    f.substitute "i1" g = .ok k ∧ Builds k φ ∧ f.IsCanonical ∧ k.IsCanonical ∧
    k.eval (fun _ => some 5) = .ok (some 2) ∧ f ≠ k := by
  have hparse : parse "8*i0 + i1 - 3" = .ok ⟨[⟨8, "i0"⟩, ⟨1, "i1"⟩], -3⟩ := by decide +kernel
  have hscale : (var "i0").scale 8 = .ok ⟨[⟨8, "i0"⟩], 0⟩ := by decide +kernel
  have hsub : (var "i1").sub ⟨[⟨8, "i0"⟩], 0⟩ = .ok ⟨[⟨-8, "i0"⟩, ⟨1, "i1"⟩], 0⟩ := by decide +kernel
  have hsubstitute : (⟨[⟨8, "i0"⟩, ⟨1, "i1"⟩], -3⟩ : Affine).substitute "i1" ⟨[⟨-8, "i0"⟩, ⟨1, "i1"⟩], 0⟩ =
      .ok ⟨[⟨1, "i1"⟩], -3⟩ := by decide +kernel
  have hbuilds := ((Builds.parse hparse).substitute
    ((Builds.var "i1").sub ((Builds.var "i0").scale hscale) hsub) hsubstitute)
  obtain ⟨hf, -⟩ := canonical_extensional.1 _ _ (.parse hparse)
  obtain ⟨hk, hvalues⟩ := canonical_extensional.1 _ _ hbuilds
  obtain ⟨-, -, heval⟩ := hvalues fun _ => 5
  refine ⟨_, _, _, _, hparse, hsubstitute, hbuilds, hf, hk, heval (by decide), ?_⟩
  intro same
  have hvalue := (canonical_extensional.2 _ _ hf hk).1 same fun _ => 5
  exact absurd hvalue (by decide)

theorem exists_insertTerm_of_fits {ts : List Term} {t : Term}
    (h : ∀ u ∈ ts, u.atom = t.atom → Word.fits (u.coeff + t.coeff) = true) :
    ∃ us, insertTerm ts t = .ok us ∧ ∀ v ∈ us, v ∈ ts ∨ v.atom = t.atom := by
  induction ts with
  | nil => exact ⟨[t], rfl, List.forall_mem_singleton.2 (.inr rfl)⟩
  | cons u us ih =>
    obtain ⟨hu, hus⟩ := List.forall_mem_cons.1 h
    rw [insertTerm]
    split
    · exact ⟨_, rfl, List.forall_mem_cons.2 ⟨.inr rfl, fun v hv => .inl hv⟩⟩
    · split
      · next same =>
        have hadd : Word.add u.coeff t.coeff = .ok (u.coeff + t.coeff) := Word.checked_of_fits (hu same.symm)
        refine ⟨⟨u.coeff + t.coeff, u.atom⟩ :: us, by rw [hadd]; rfl, List.forall_mem_cons.2 ⟨.inr same.symm, ?_⟩⟩
        exact fun v hv => .inl (List.mem_cons_of_mem u hv)
      · obtain ⟨rest, hrest, hmem⟩ := ih hus
        refine ⟨u :: rest, by rw [hrest]; rfl, List.forall_mem_cons.2 ⟨.inl List.mem_cons_self, fun v hv => ?_⟩⟩
        exact (hmem v hv).imp_left (List.mem_cons_of_mem u)

theorem exists_foldlM_insertTerm_of_fits {acc ts : List Term} (hatoms : (ts.map Term.atom).Nodup)
    (h : ∀ t ∈ ts, ∀ u ∈ acc, u.atom = t.atom → Word.fits (u.coeff + t.coeff) = true) :
    ∃ us, ts.foldlM insertTerm acc = .ok us := by
  induction ts generalizing acc with
  | nil => exact ⟨acc, rfl⟩
  | cons t ts ih =>
    obtain ⟨hnew, hatoms⟩ := List.nodup_cons.1 hatoms
    obtain ⟨ht, hts⟩ := List.forall_mem_cons.1 h
    obtain ⟨next, hnext, hmem⟩ := exists_insertTerm_of_fits ht
    have hrest : ∀ s ∈ ts, ∀ v ∈ next, v.atom = s.atom → Word.fits (v.coeff + s.coeff) = true := by
      intro s hs v hv same
      refine (hmem v hv).elim (fun hv => hts s hs v hv same) fun hvt => ?_
      exact absurd (List.mem_map.2 ⟨s, hs, same.symm.trans hvt⟩) hnew
    obtain ⟨us, hus⟩ := ih hatoms hrest
    exact ⟨us, by rw [List.foldlM_cons, hnext]; exact hus⟩

theorem exists_add {f g : Affine} (hf : f.IsCanonical) (hg : g.IsCanonical)
    (hconstant : Word.fits (f.constant + g.constant) = true)
    (hcoeffs : ∀ t ∈ g.terms, ∀ u ∈ f.terms, u.atom = t.atom → Word.fits (u.coeff + t.coeff) = true) :
    ∃ h, f.add g = .ok h := by
  have hfirst : (([] ++ f.terms).map Term.atom).Nodup := hf.nodup_atoms
  obtain ⟨us, hus, hperm⟩ := exists_foldlM_insertTerm hfirst
  obtain ⟨vs, hvs⟩ := exists_foldlM_insertTerm_of_fits hg.nodup_atoms
    fun t ht u hu same => hcoeffs t ht u (hperm.subset hu) same
  have hcollect : collect (f.terms ++ g.terms) = .ok (vs.filter fun t => t.coeff != 0) := by
    rw [collect, List.foldlM_append, hus, ok_bind, hvs]
    rfl
  exact ⟨_, bind₂_eq_ok.2 ⟨_, _, Word.checked_of_fits hconstant, hcollect, rfl⟩⟩

theorem exists_scale_var (a : String) {k : Int} (hk : Word.fits k = true) : ∃ f, (var a).scale k = .ok f := by
  by_cases hzero : k = 0
  · rw [hzero]
    exact ⟨_, rfl⟩
  · exact ⟨_, scale_var hk hzero⟩

theorem scale_ofInt {c k : Int} (h : Word.fits (c * k) = true) : (ofInt c).scale k = .ok (ofInt (c * k)) := by
  rw [scale, ofInt, scaleTerms, ok_bind, Word.mul, Word.checked_of_fits h]
  rfl

end LoopNest.Affine

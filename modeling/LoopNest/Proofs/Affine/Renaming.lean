import LoopNest.Affine.Parser
import LoopNest.Proofs.Affine.Scope
import LoopNest.Proofs.Lists
import Mathlib.Data.List.Nodup
import Mathlib.Data.List.Perm.Basic

namespace LoopNest.Affine

structure Fits (f : Affine) : Prop where
  constant : Word.fits f.constant = true
  coeffs : ∀ t ∈ f.terms, Word.fits t.coeff = true

structure Normal (f : Affine) : Prop where
  fits : f.Fits
  canonical : f.IsCanonical

theorem Normal.nodup_atoms {f : Affine} (hf : f.Normal) : f.atoms.Nodup := hf.canonical.nodup_atoms

theorem normal_ofInt {c : Int} (hc : Word.fits c = true) : (ofInt c).Normal :=
  ⟨⟨hc, fun _ h => absurd h List.not_mem_nil⟩, isCanonical_ofInt c⟩

theorem normal_var (a : String) : (var a).Normal :=
  ⟨⟨rfl, fun t h => by rw [List.mem_singleton.1 h]; rfl⟩, isCanonical_var a⟩

section Fits

theorem fits_insertTerm {ts us : List Term} {t : Term} (hts : ∀ u ∈ ts, Word.fits u.coeff = true)
    (ht : Word.fits t.coeff = true) (h : insertTerm ts t = .ok us) : ∀ u ∈ us, Word.fits u.coeff = true := by
  induction ts generalizing us with
  | nil =>
    cases h
    simpa using ht
  | cons v ts ih =>
    obtain ⟨hv, hts⟩ := List.forall_mem_cons.1 hts
    unfold insertTerm at h
    split at h
    · cases h
      exact List.forall_mem_cons.2 ⟨ht, List.forall_mem_cons.2 ⟨hv, hts⟩⟩
    · split at h
      · obtain ⟨c, hc, h⟩ := bind_eq_ok.1 h
        cases h
        obtain ⟨rfl, hfits⟩ := Word.add_eq_ok.1 hc
        exact List.forall_mem_cons.2 ⟨hfits, hts⟩
      · obtain ⟨rest, hrest, h⟩ := bind_eq_ok.1 h
        cases h
        exact List.forall_mem_cons.2 ⟨hv, ih hts hrest⟩

theorem fits_foldlM_insertTerm {ts acc us : List Term} (hacc : ∀ u ∈ acc, Word.fits u.coeff = true)
    (hts : ∀ t ∈ ts, Word.fits t.coeff = true) (h : ts.foldlM insertTerm acc = .ok us) :
    ∀ u ∈ us, Word.fits u.coeff = true := by
  induction ts generalizing acc with
  | nil =>
    cases h
    exact hacc
  | cons t ts ih =>
    rw [List.foldlM_cons] at h
    obtain ⟨next, hnext, h⟩ := bind_eq_ok.1 h
    obtain ⟨ht, hts⟩ := List.forall_mem_cons.1 hts
    exact ih (fits_insertTerm hacc ht hnext) hts h

theorem fits_collect {ts us : List Term} (hts : ∀ t ∈ ts, Word.fits t.coeff = true) (h : collect ts = .ok us) :
    ∀ u ∈ us, Word.fits u.coeff = true := by
  obtain ⟨sorted, hsorted, h⟩ := bind_eq_ok.1 h
  cases h
  exact fun u hu => fits_foldlM_insertTerm (fun _ h => absurd h List.not_mem_nil) hts hsorted u (List.mem_filter.1 hu).1

theorem fits_scaleTerms {k : Int} {ts us : List Term} (h : scaleTerms k ts = .ok us) :
    ∀ u ∈ us, Word.fits u.coeff = true := by
  induction ts generalizing us with
  | nil =>
    cases h
    exact fun _ h => absurd h List.not_mem_nil
  | cons t ts ih =>
    obtain ⟨c, rest, hc, hrest, rfl⟩ := bind₂_eq_ok.1 h
    obtain ⟨rfl, hfits⟩ := Word.mul_eq_ok.1 hc
    exact List.forall_mem_cons.2 ⟨hfits, ih hrest⟩

theorem normal_add {f g h : Affine} (hf : f.Fits) (hg : g.Fits) (e : f.add g = .ok h) : h.Normal := by
  refine ⟨?_, isCanonical_add e⟩
  obtain ⟨c, ts, hc, hts, rfl⟩ := bind₂_eq_ok.1 e
  obtain ⟨rfl, hfits⟩ := Word.add_eq_ok.1 hc
  exact ⟨hfits, fits_collect (List.forall_mem_append.2 ⟨hf.coeffs, hg.coeffs⟩) hts⟩

theorem normal_scale {f g : Affine} {k : Int} (e : f.scale k = .ok g) : g.Normal := by
  refine ⟨?_, isCanonical_scale e⟩
  obtain ⟨scaled, hscaled, e⟩ := bind_eq_ok.1 e
  obtain ⟨c, ts, hc, hts, rfl⟩ := bind₂_eq_ok.1 e
  obtain ⟨rfl, hfits⟩ := Word.mul_eq_ok.1 hc
  exact ⟨hfits, fits_collect (fits_scaleTerms hscaled) hts⟩

theorem normal_bindTerms {ε : Type} {m : String → Outcome ε Affine} {acc g : Affine} {ts : List Term}
    (hacc : acc.Normal) (h : bindTerms m acc ts = .ok g) : g.Normal := by
  induction ts generalizing acc with
  | nil =>
    cases h
    exact hacc
  | cons t ts ih =>
    obtain ⟨bound, -, h⟩ := bind_eq_ok.1 h
    obtain ⟨scaled, hscaled, h⟩ := bind_eq_ok.1 h
    obtain ⟨next, hnext, h⟩ := bind_eq_ok.1 h
    exact ih (normal_add hacc.fits (normal_scale (lift_eq_ok.1 hscaled)).fits (lift_eq_ok.1 hnext)) h

theorem normal_tryBind {ε : Type} {m : String → Outcome ε Affine} {f g : Affine} (hf : f.Normal)
    (h : f.tryBind m = .ok g) : g.Normal := normal_bindTerms (normal_ofInt hf.fits.constant) h

theorem normal_bindVarTerms {m : String → Affine} {acc g : Affine} {ts : List Term} (hacc : acc.Normal)
    (h : bindVarTerms m acc ts = .ok g) : g.Normal := by
  induction ts generalizing acc with
  | nil =>
    cases h
    exact hacc
  | cons t ts ih =>
    obtain ⟨scaled, hscaled, h⟩ := bind_eq_ok.1 h
    obtain ⟨next, hnext, h⟩ := bind_eq_ok.1 h
    exact ih (normal_add hacc.fits (normal_scale hscaled).fits hnext) h

theorem normal_bindVars {m : String → Affine} {f g : Affine} (hf : f.Normal) (h : f.bindVars m = .ok g) :
    g.Normal := normal_bindVarTerms (normal_ofInt hf.fits.constant) h

theorem fits_of_parseFactors {e : ParseError} {c k : Int} {a b : Option String} {ws : List (List Char)}
    (hc : Word.fits c = true) (h : parseFactors e c a ws = .ok (k, b)) : Word.fits k = true := by
  induction ws generalizing c a with
  | nil =>
    cases h
    exact hc
  | cons w ws ih =>
    rw [parseFactors] at h
    split at h
    · obtain ⟨next, hnext, h⟩ := bind_eq_ok.1 h
      obtain ⟨rfl, hfits⟩ := Word.mul_eq_ok.1 (lift_eq_ok.1 hnext)
      exact ih hfits h
    · split at h
      · exact ih hc h
      · cases h

theorem fits_splitSign (term : List Char) : Word.fits (splitSign term).1 = true := by
  fun_cases splitSign term <;> rfl

theorem normal_readTerm {e : ParseError} {term : List Char} {f : Affine} (h : readTerm e term = .ok f) :
    f.Normal := by
  have hsign := fits_splitSign term
  rw [readTerm] at h
  obtain ⟨sign, body⟩ := splitSign term
  obtain ⟨⟨c, a⟩, hfactors, h⟩ := bind_eq_ok.1 h
  cases a with
  | some a => exact normal_scale (lift_eq_ok.1 h)
  | none =>
    cases h
    exact normal_ofInt (fits_of_parseFactors hsign hfactors)

theorem normal_sumTerms {e : ParseError} {acc f : Affine} {ws : List (List Char)} (hacc : acc.Normal)
    (h : sumTerms e acc ws = .ok f) : f.Normal := by
  induction ws generalizing acc with
  | nil =>
    cases h
    exact hacc
  | cons w ws ih =>
    obtain ⟨t, ht, h⟩ := bind_eq_ok.1 h
    obtain ⟨next, hnext, h⟩ := bind_eq_ok.1 h
    exact ih (normal_add hacc.fits (normal_readTerm ht).fits (lift_eq_ok.1 hnext)) h

theorem normal_of_parse {s : String} {f : Affine} (h : parse s = .ok f) : f.Normal := by
  rw [parse] at h
  split at h
  · cases h
  · exact normal_sumTerms (normal_ofInt rfl) h

end Fits

section Collect

theorem exists_insertTerm {ts : List Term} {t : Term} (h : t.atom ∉ ts.map Term.atom) :
    ∃ us, insertTerm ts t = .ok us ∧ us.Perm (t :: ts) := by
  induction ts with
  | nil => exact ⟨[t], rfl, .refl _⟩
  | cons u ts ih =>
    simp only [List.map_cons, List.mem_cons, not_or] at h
    by_cases hlt : t.atom < u.atom
    · exact ⟨t :: u :: ts, by rw [insertTerm, if_pos hlt], .refl _⟩
    · obtain ⟨us, hus, hperm⟩ := ih h.2
      refine ⟨u :: us, by rw [insertTerm, if_neg hlt, if_neg h.1, hus]; rfl, ?_⟩
      exact (hperm.cons u).trans (List.Perm.swap t u ts)

theorem exists_foldlM_insertTerm {acc ts : List Term} (h : ((acc ++ ts).map Term.atom).Nodup) :
    ∃ us, ts.foldlM insertTerm acc = .ok us ∧ us.Perm (acc ++ ts) := by
  induction ts generalizing acc with
  | nil => exact ⟨acc, rfl, by rw [List.append_nil]⟩
  | cons t ts ih =>
    obtain ⟨next, hnext, hperm⟩ := exists_insertTerm (not_mem_of_nodup_map h)
    have hmiddle : (next ++ ts).Perm (acc ++ t :: ts) :=
      (hperm.append_right ts).trans List.perm_middle.symm
    obtain ⟨us, hus, hperm'⟩ := ih ((hmiddle.map Term.atom).nodup_iff.2 h)
    refine ⟨us, ?_, hperm'.trans hmiddle⟩
    rw [List.foldlM_cons, hnext]
    exact hus

theorem exists_collect {ts : List Term} (hatoms : (ts.map Term.atom).Nodup) (hcoeffs : ∀ t ∈ ts, t.coeff ≠ 0) :
    ∃ us, collect ts = .ok us ∧ us.Perm ts := by
  obtain ⟨us, hus, hperm⟩ := @exists_foldlM_insertTerm [] ts hatoms
  have hfilter : us.filter (fun t => t.coeff != 0) = us :=
    List.filter_eq_self.2 fun t ht => by simpa using hcoeffs t (hperm.subset ht)
  refine ⟨us, ?_, hperm⟩
  rw [collect, hus, ok_bind, hfilter]
  rfl

theorem scale_var {a : String} {k : Int} (hk : Word.fits k = true) (hne : k ≠ 0) :
    (var a).scale k = .ok ⟨[⟨k, a⟩], 0⟩ := by
  have hmul : Word.mul 1 k = .ok k := by rw [Word.mul, Int.one_mul, Word.checked_of_fits hk]
  have hzero : Word.mul 0 k = .ok 0 := by rw [Word.mul, Int.zero_mul]; rfl
  have hatoms : ([⟨k, a⟩] : List Term).map Term.atom |>.Nodup := by simp
  obtain ⟨us, hus, hperm⟩ := exists_collect hatoms (by simpa using hne)
  obtain rfl := List.perm_singleton.1 hperm
  rw [scale, var, scaleTerms, hmul, ok_bind, scaleTerms, ok_bind]
  change (do let c ← Word.mul 0 k; let ts ← collect [⟨k, a⟩]; pure (⟨ts, c⟩ : Affine)) = _
  rw [hzero, ok_bind, hus]
  rfl

end Collect

end LoopNest.Affine

namespace LoopNest

def Term.rename (ρ : String → String) (t : Term) : Term := { t with atom := ρ t.atom }

namespace Affine

structure Renames (ρ : String → String) (f g : Affine) : Prop where
  constant : g.constant = f.constant
  terms : g.terms.Perm (f.terms.map (Term.rename ρ))

theorem exists_bindVarTerms {ρ : String → String} {ts : List Term}
    (hts : ∀ t ∈ ts, Word.fits t.coeff = true ∧ t.coeff ≠ 0) {acc : Affine} (hconstant : Word.fits acc.constant = true)
    (hacc : ∀ t ∈ acc.terms, t.coeff ≠ 0) (hatoms : ((acc.terms ++ ts.map (Term.rename ρ)).map Term.atom).Nodup) :
    ∃ g, bindVarTerms (fun a => var (ρ a)) acc ts = .ok g ∧ g.constant = acc.constant ∧
      g.terms.Perm (acc.terms ++ ts.map (Term.rename ρ)) := by
  induction ts generalizing acc with
  | nil => exact ⟨acc, rfl, rfl, by rw [List.map_nil, List.append_nil]⟩
  | cons t ts ih =>
    obtain ⟨⟨hfits, hne⟩, hts⟩ := List.forall_mem_cons.1 hts
    have hsplit :
        acc.terms ++ (t :: ts).map (Term.rename ρ) = (acc.terms ++ [t.rename ρ]) ++ ts.map (Term.rename ρ) := by simp
    rw [hsplit] at hatoms ⊢
    have hfirst : ((acc.terms ++ [t.rename ρ]).map Term.atom).Nodup := by
      rw [List.map_append] at hatoms
      exact hatoms.of_append_left
    have hcoeffs : ∀ u ∈ acc.terms ++ [t.rename ρ], u.coeff ≠ 0 :=
      List.forall_mem_append.2 ⟨hacc, List.forall_mem_singleton.2 hne⟩
    -- no term so far has the new name, so the renamed term goes in as it is
    obtain ⟨us, hus, hperm⟩ := exists_collect hfirst hcoeffs
    have hadd : acc.add ⟨[t.rename ρ], 0⟩ = .ok ⟨us, acc.constant⟩ := by
      rw [add, Word.add, Int.add_zero, Word.checked_of_fits hconstant, ok_bind, hus]
      rfl
    obtain ⟨g, hg, hgconstant, hgterms⟩ := @ih hts ⟨us, acc.constant⟩ hconstant
      (fun u hu => hcoeffs u (hperm.subset hu)) (((hperm.append_right _).map Term.atom).nodup_iff.2 hatoms)
    refine ⟨g, ?_, hgconstant, hgterms.trans (hperm.append_right _)⟩
    rw [bindVarTerms, scale_var hfits hne, ok_bind]
    change (acc.add ⟨[t.rename ρ], 0⟩ >>= _) = _
    rw [hadd, ok_bind, hg]

theorem exists_renamed {ρ : String → String} {f : Affine} (hf : f.Normal) (hρ : (f.atoms.map ρ).Nodup) :
    ∃ g, f.bindVars (fun a => var (ρ a)) = .ok g ∧ f.Renames ρ g := by
  have hatoms : ((f.terms.map (Term.rename ρ)).map Term.atom).Nodup := by
    rw [atoms, List.map_map] at hρ
    rwa [List.map_map]
  obtain ⟨g, hg, hconstant, hterms⟩ := @exists_bindVarTerms ρ f.terms
    (fun t ht => ⟨hf.fits.coeffs t ht, hf.canonical.2 t ht⟩) (ofInt f.constant) hf.fits.constant
    (fun _ h => absurd h List.not_mem_nil) hatoms
  exact ⟨g, hg, hconstant, hterms⟩

theorem renames_of_bindVars {ρ : String → String} {f g : Affine} (hf : f.Normal) (hρ : (f.atoms.map ρ).Nodup)
    (h : f.bindVars (fun a => var (ρ a)) = .ok g) : f.Renames ρ g := by
  obtain ⟨g', hg', hrenames⟩ := exists_renamed hf hρ
  cases h.symm.trans hg'
  exact hrenames

theorem termsValue_perm {ts us : List Term} (h : ts.Perm us) (env : String → Int) :
    termsValue env ts = termsValue env us := by
  induction h with
  | nil => rfl
  | cons t _ ih => rw [termsValue, termsValue, ih]
  | swap t u ts =>
    simp only [termsValue]
    omega
  | trans _ _ ih ih' => rw [ih, ih']

theorem termsValue_rename (ρ : String → String) (ts : List Term) (env : String → Int) :
    termsValue env (ts.map (Term.rename ρ)) = termsValue (env ∘ ρ) ts := by
  induction ts with
  | nil => rfl
  | cons t ts ih =>
    rw [List.map_cons, termsValue, termsValue, ih]
    rfl

namespace Renames

variable {ρ σ : String → String} {f g h : Affine}

theorem value (hfg : f.Renames ρ g) (env : String → Int) : g.value env = f.value (env ∘ ρ) := by
  rw [Affine.value, Affine.value, hfg.constant, termsValue_perm hfg.terms, termsValue_rename]

theorem trans (hfg : f.Renames ρ g) (hgh : g.Renames σ h) : f.Renames (σ ∘ ρ) h where
  constant := hgh.constant.trans hfg.constant
  terms := by
    have hterms := hgh.terms.trans (hfg.terms.map (Term.rename σ))
    rwa [List.map_map] at hterms

theorem congr (hfg : f.Renames ρ g) {names : List String} (hf : f.Over names) (h : ∀ a ∈ names, ρ a = σ a) :
    f.Renames σ g where
  constant := hfg.constant
  terms := by
    have hmap : f.terms.map (Term.rename ρ) = f.terms.map (Term.rename σ) :=
      List.map_congr_left fun t ht => by rw [Term.rename, Term.rename, h t.atom (over_iff.1 hf t ht)]
    exact hmap ▸ hfg.terms

end Renames

end Affine

end LoopNest

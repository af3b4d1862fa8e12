import LoopNest.Proofs.Kernel.Lowering

namespace LoopNest

theorem Word.checked_of_natAbs {x : Int} (h : x.natAbs < 9223372036854775808) : Word.checked x = .ok x :=
  Word.checked_of_fits (by simp [Word.fits]; omega)

def Affine.termsWeight : List Term → Nat
  | [] => 0
  | t :: ts => t.coeff.natAbs + termsWeight ts

def Affine.weight (f : Affine) : Nat := f.constant.natAbs + termsWeight f.terms

def Affine.termsMagnitude (env : String → Int) : List Term → Nat
  | [] => 0
  | t :: ts => (t.coeff * env t.atom).natAbs + termsMagnitude env ts

def Affine.magnitude (f : Affine) (env : String → Int) : Nat := f.constant.natAbs + termsMagnitude env f.terms

namespace KernelForm

def termsWeight : List (Nat × Int) → Nat
  | [] => 0
  | t :: ts => t.2.natAbs + termsWeight ts

def weight (f : KernelForm) : Nat := f.constant.natAbs + termsWeight f.terms

def termsMagnitude (env : Env) : List (Nat × Int) → Nat
  | [] => 0
  | t :: ts => (t.2 * env.getD t.1 0).natAbs + termsMagnitude env ts

def magnitude (f : KernelForm) (env : Env) : Nat := f.constant.natAbs + termsMagnitude env f.terms

theorem exists_addTerm (ts : List (Nat × Int)) (slot : Nat) (c : Int)
    (h : termsWeight ts + c.natAbs < 9223372036854775808) :
    ∃ us, addTerm ts slot c = .ok us ∧ termsWeight us ≤ termsWeight ts + c.natAbs := by
  induction ts with
  | nil => exact ⟨[(slot, c)], rfl, by simp [termsWeight]⟩
  | cons t ts ih =>
    rw [termsWeight] at h
    by_cases hslot : t.1 = slot
    · have hadd : Word.add t.2 c = .ok (t.2 + c) := Word.checked_of_natAbs (by omega)
      refine ⟨(t.1, t.2 + c) :: ts, by rw [addTerm, if_pos hslot, hadd]; rfl, ?_⟩
      simp only [termsWeight]
      omega
    · obtain ⟨us, hus, hle⟩ := ih (by omega)
      refine ⟨t :: us, by rw [addTerm, if_neg hslot, hus]; rfl, ?_⟩
      simp only [termsWeight]
      omega

theorem exists_plusMultipleTerms (scale : Int) (acc ts : List (Nat × Int))
    (h : termsWeight acc + scale.natAbs * termsWeight ts < 9223372036854775808) :
    ∃ us, plusMultipleTerms scale acc ts = .ok us ∧
      termsWeight us ≤ termsWeight acc + scale.natAbs * termsWeight ts := by
  induction ts generalizing acc with
  | nil => exact ⟨acc, rfl, by simp [termsWeight]⟩
  | cons t ts ih =>
    have hweight : scale.natAbs * termsWeight (t :: ts) = (t.2 * scale).natAbs + scale.natAbs * termsWeight ts := by
      rw [termsWeight, Nat.mul_add, Int.natAbs_mul, Nat.mul_comm]
    rw [hweight] at h ⊢
    have hmul : Word.mul t.2 scale = .ok (t.2 * scale) := Word.checked_of_natAbs (by omega)
    obtain ⟨next, hnext, hle⟩ := exists_addTerm acc t.1 (t.2 * scale) (by omega)
    obtain ⟨us, hus, hle'⟩ := ih next (by omega)
    refine ⟨us, ?_, by omega⟩
    rw [plusMultipleTerms, hmul, ok_bind, hnext, ok_bind, hus]

theorem termsWeight_filter_le (ts : List (Nat × Int)) (p : Nat × Int → Bool) :
    termsWeight (ts.filter p) ≤ termsWeight ts := by
  induction ts with
  | nil => simp
  | cons t ts ih =>
    rw [List.filter_cons]
    split
    · simp only [termsWeight]
      omega
    · simp only [termsWeight]
      omega

theorem exists_plusMultiple (f g : KernelForm) (scale : Int)
    (h : f.weight + scale.natAbs * g.weight < 9223372036854775808) :
    ∃ k, f.plusMultiple g scale = .ok k ∧ k.weight ≤ f.weight + scale.natAbs * g.weight := by
  have hscaled : scale.natAbs * g.weight = (g.constant * scale).natAbs + scale.natAbs * termsWeight g.terms := by
    rw [weight, Nat.mul_add, Int.natAbs_mul, Nat.mul_comm]
  rw [hscaled, weight] at h
  have hmul : Word.mul g.constant scale = .ok (g.constant * scale) := Word.checked_of_natAbs (by omega)
  have hadd : Word.add f.constant (g.constant * scale) = .ok (f.constant + g.constant * scale) :=
    Word.checked_of_natAbs (by omega)
  obtain ⟨terms, hterms, hle⟩ := exists_plusMultipleTerms scale f.terms g.terms (by omega)
  refine ⟨_, by rw [plusMultiple, hmul, ok_bind, hadd, ok_bind, hterms]; rfl, ?_⟩
  have hfilter := termsWeight_filter_le terms fun t => t.2 != 0
  rw [hscaled, weight, weight]
  simp only
  omega

section Eval

variable {env : Env}

theorem exists_evalTerms (total : Int) (ts : List (Nat × Int))
    (h : total.natAbs + termsMagnitude env ts < 9223372036854775808) : ∃ n, evalTerms env total ts = .ok n := by
  induction ts generalizing total with
  | nil => exact ⟨total, rfl⟩
  | cons t ts ih =>
    rw [termsMagnitude] at h
    have hmul : Word.mul t.2 (env.getD t.1 0) = .ok _ := Word.checked_of_natAbs (by omega)
    have hadd : Word.add total (t.2 * env.getD t.1 0) = .ok _ := Word.checked_of_natAbs (by omega)
    obtain ⟨n, hn⟩ := ih (total + t.2 * env.getD t.1 0) (by omega)
    exact ⟨n, by rw [evalTerms, hmul, ok_bind, hadd, ok_bind, hn]⟩

theorem exists_eval_of_magnitude {f : KernelForm} (h : f.magnitude env < 9223372036854775808) :
    ∃ n, f.eval env = .ok n := exists_evalTerms _ _ h

theorem termsMagnitude_le {bound : Nat} (henv : ∀ n, (env.getD n 0).natAbs ≤ bound) (ts : List (Nat × Int)) :
    termsMagnitude env ts ≤ termsWeight ts * bound := by
  induction ts with
  | nil => exact Nat.zero_le _
  | cons t ts ih =>
    have hterm : (t.2 * env.getD t.1 0).natAbs ≤ t.2.natAbs * bound := by
      rw [Int.natAbs_mul]
      exact Nat.mul_le_mul_left _ (henv t.1)
    rw [termsMagnitude, termsWeight, Nat.add_mul]
    exact Nat.add_le_add hterm ih

theorem exists_eval {f : KernelForm} {bound : Nat} (henv : ∀ n, (env.getD n 0).natAbs ≤ bound) (hbound : 0 < bound)
    (h : f.weight * bound < 9223372036854775808) : ∃ n, f.eval env = .ok n := by
  have hconstant : f.constant.natAbs ≤ f.constant.natAbs * bound := Nat.le_mul_of_pos_right _ hbound
  have hterms := termsMagnitude_le henv f.terms
  rw [weight, Nat.add_mul] at h
  exact exists_eval_of_magnitude (by rw [magnitude]; omega)

end Eval

end KernelForm

def Leaf.weight (l : Leaf) : Nat := (l.bindings.map Affine.weight).foldr max 1

theorem Leaf.one_le_weight (l : Leaf) : 1 ≤ l.weight := by
  rw [weight]
  induction l.bindings with
  | nil => simp
  | cons f fs ih =>
    simp only [List.map_cons, List.foldr_cons]
    omega

theorem Leaf.weight_le {l : Leaf} {f : Affine} (h : f ∈ l.bindings) : f.weight ≤ l.weight := by
  rw [weight]
  generalize l.bindings = fs at h ⊢
  induction fs with
  | nil => cases h
  | cons g gs ih =>
    simp only [List.map_cons, List.foldr_cons]
    rcases List.mem_cons.1 h with rfl | h
    · omega
    · have hle := ih h
      omega

namespace Numbering

theorem termsWeight_slots {scope : Scope} {ts : List Term} {us : List (Nat × Int)} (h : slots scope ts = .ok us) :
    KernelForm.termsWeight us = Affine.termsWeight ts := by
  have hcoeffs := (slots_eq_ok h).2
  clear h
  induction us generalizing ts with
  | nil =>
    obtain rfl := List.map_eq_nil_iff.1 hcoeffs.symm
    rfl
  | cons u us ih =>
    cases ts with
    | nil => cases hcoeffs
    | cons t ts =>
      obtain ⟨hcoeff, hrest⟩ := List.cons.inj hcoeffs
      rw [KernelForm.termsWeight, Affine.termsWeight, hcoeff, ih hrest]

theorem weight_of_form {scope : Scope} {f : Affine} {g : KernelForm} (h : form scope f = .ok g) :
    g.weight = f.weight := by
  obtain ⟨terms, hterms, h⟩ := bind_eq_ok.1 h
  cases h
  rw [KernelForm.weight, Affine.weight, termsWeight_slots hterms]

theorem termsMagnitude_slots {scope : Scope} {env : Env} (hlength : scope.length = env.length) {ts : List Term}
    {us : List (Nat × Int)} (h : slots scope ts = .ok us) :
    KernelForm.termsMagnitude env us = Affine.termsMagnitude (valuation scope env) ts := by
  induction ts generalizing us with
  | nil =>
    cases h
    rfl
  | cons t ts ih =>
    rw [slots] at h
    split at h
    · cases h
    · next slot hslot =>
      obtain ⟨rest, hrest, h⟩ := bind_eq_ok.1 h
      cases h
      rw [KernelForm.termsMagnitude, Affine.termsMagnitude, ih hrest, valuation_of_position hlength hslot]

theorem magnitude_of_form {scope : Scope} {env : Env} (hlength : scope.length = env.length) {f : Affine}
    {g : KernelForm} (h : form scope f = .ok g) : g.magnitude env = f.magnitude (valuation scope env) := by
  obtain ⟨terms, hterms, h⟩ := bind_eq_ok.1 h
  cases h
  rw [KernelForm.magnitude, Affine.magnitude, termsMagnitude_slots hlength hterms]

section Bindings

variable {b : Bindings} {names : List String} {most : Nat} (hb : b.Covers names)
  (hmost : ∀ v ∈ b.values, v.2.weight ≤ most)
include hb hmost

theorem exists_sum {ts : List Term} (hts : ∀ t ∈ ts, t.atom ∈ names) (acc : KernelForm)
    (h : acc.weight + Affine.termsWeight ts * most < 9223372036854775808) :
    ∃ g, b.sum acc ts = .ok g ∧ g.weight ≤ acc.weight + Affine.termsWeight ts * most := by
  induction ts generalizing acc with
  | nil => exact ⟨acc, rfl, by simp [Affine.termsWeight]⟩
  | cons t ts ih =>
    obtain ⟨v, hv⟩ := hb t.atom (hts t List.mem_cons_self)
    have hterm : t.coeff.natAbs * v.2.weight ≤ t.coeff.natAbs * most :=
      Nat.mul_le_mul_left _ (hmost v (List.mem_of_find?_eq_some hv))
    rw [Affine.termsWeight, Nat.add_mul] at h ⊢
    obtain ⟨next, hnext, hle⟩ := KernelForm.exists_plusMultiple acc v.2 t.coeff (by omega)
    obtain ⟨g, hg, hle'⟩ := ih (fun u hu => hts u (List.mem_cons_of_mem t hu)) next (by omega)
    refine ⟨g, ?_, by omega⟩
    simp only [Bindings.sum, hv, hnext, lift_ok, ok_bind, hg]

theorem exists_boundForm {f : Affine} (hf : f.Over names) (hpos : 0 < most)
    (h : f.weight * most < 9223372036854775808) : ∃ g, b.form f = .ok g ∧ g.weight ≤ f.weight * most := by
  have hconstant : f.constant.natAbs ≤ f.constant.natAbs * most := Nat.le_mul_of_pos_right _ hpos
  rw [Affine.weight, Nat.add_mul] at h ⊢
  have hacc : KernelForm.weight ⟨[], f.constant⟩ = f.constant.natAbs := rfl
  obtain ⟨g, hg, hle⟩ := exists_sum hb hmost (Affine.over_iff.1 hf) ⟨[], f.constant⟩ (by omega)
  exact ⟨g, hg, by omega⟩

end Bindings

theorem weight_of_bindings {scope : Scope} {l : Leaf} {gs : List KernelForm}
    (h : forms scope l.bindings = .ok gs) : ∀ g ∈ gs, g.weight ≤ l.weight := by
  intro g hg
  obtain ⟨f, hf, hfg⟩ := (traverses_forms scope).exists_of_mem h hg
  rw [weight_of_form hfg]
  exact Leaf.weight_le hf

end Numbering

end LoopNest

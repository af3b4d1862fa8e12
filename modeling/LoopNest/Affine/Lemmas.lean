import LoopNest.Affine.Basic

namespace LoopNest.Affine

variable (env : String → Int)

theorem termsValue_insertTerm {ts us : List Term} {t : Term} (h : insertTerm ts t = .ok us) :
    termsValue env us = termsValue env ts + t.coeff * env t.atom := by
  induction ts generalizing us with
  | nil =>
    cases h
    simp [termsValue]
  | cons u ts ih =>
    unfold insertTerm at h
    split at h
    · cases h
      simp only [termsValue]
      omega
    · split at h
      · next _ same =>
        obtain ⟨c, hc, h⟩ := bind_eq_ok.1 h
        cases h
        obtain ⟨rfl, _⟩ := Word.add_eq_ok.1 hc
        simp only [termsValue, same, Int.add_mul]
        omega
      · obtain ⟨rest, hr, h⟩ := bind_eq_ok.1 h
        cases h
        simp only [termsValue, ih hr]
        omega

theorem termsValue_foldlM_insertTerm {ts acc us : List Term} (h : ts.foldlM insertTerm acc = .ok us) :
    termsValue env us = termsValue env acc + termsValue env ts := by
  induction ts generalizing acc with
  | nil =>
    cases h
    simp [termsValue]
  | cons t ts ih =>
    rw [List.foldlM_cons] at h
    obtain ⟨next, hn, h⟩ := bind_eq_ok.1 h
    rw [ih h, termsValue_insertTerm env hn]
    simp only [termsValue]
    omega

theorem termsValue_filter_coeff (ts : List Term) :
    termsValue env (ts.filter (fun t => t.coeff != 0)) = termsValue env ts := by
  induction ts with
  | nil => rfl
  | cons t ts ih =>
    by_cases h : t.coeff = 0
    · simp [h, termsValue, ih]
    · simp [h, termsValue, ih]

theorem termsValue_collect {ts us : List Term} (h : collect ts = .ok us) :
    termsValue env us = termsValue env ts := by
  obtain ⟨sorted, hs, h⟩ := bind_eq_ok.1 h
  cases h
  rw [termsValue_filter_coeff, termsValue_foldlM_insertTerm env hs]
  simp [termsValue]

theorem termsValue_scaleTerms {k : Int} {ts us : List Term} (h : scaleTerms k ts = .ok us) :
    termsValue env us = k * termsValue env ts := by
  induction ts generalizing us with
  | nil =>
    cases h
    simp [termsValue]
  | cons t ts ih =>
    obtain ⟨c, rest, hc, hr, rfl⟩ := bind₂_eq_ok.1 h
    obtain ⟨rfl, _⟩ := Word.mul_eq_ok.1 hc
    simp only [termsValue, ih hr, Int.mul_add]
    rw [Int.mul_comm t.coeff k, Int.mul_assoc]

theorem value_add {f g h : Affine} (e : f.add g = .ok h) :
    h.value env = f.value env + g.value env := by
  obtain ⟨c, ts, hc, ht, rfl⟩ := bind₂_eq_ok.1 e
  obtain ⟨rfl, _⟩ := Word.add_eq_ok.1 hc
  simp only [value, termsValue_collect env ht, termsValue_append]
  omega

theorem value_scale {f g : Affine} {k : Int} (e : f.scale k = .ok g) :
    g.value env = k * f.value env := by
  obtain ⟨scaled, hs, e⟩ := bind_eq_ok.1 e
  obtain ⟨c, ts, hc, ht, rfl⟩ := bind₂_eq_ok.1 e
  obtain ⟨rfl, _⟩ := Word.mul_eq_ok.1 hc
  simp only [value, termsValue_collect env ht, termsValue_scaleTerms env hs, Int.mul_add,
    Int.mul_comm k f.constant]

theorem value_neg {f g : Affine} (e : f.neg = .ok g) : g.value env = -f.value env := by
  rw [value_scale env e]
  omega

theorem value_sub {f g h : Affine} (e : f.sub g = .ok h) :
    h.value env = f.value env - g.value env := by
  obtain ⟨n, hn, e⟩ := bind_eq_ok.1 e
  rw [value_add env e, value_neg env hn]
  omega

theorem value_addConstant {f g : Affine} {k : Int} (e : f.addConstant k = .ok g) :
    g.value env = f.value env + k := by
  obtain ⟨c, hc, e⟩ := bind_eq_ok.1 e
  cases e
  obtain ⟨rfl, _⟩ := Word.add_eq_ok.1 hc
  simp only [value]
  omega

theorem value_bindVarTerms {m : String → Affine} {ts : List Term} {acc g : Affine}
    (e : bindVarTerms m acc ts = .ok g) :
    g.value env = acc.value env + termsValue (fun a => (m a).value env) ts := by
  induction ts generalizing acc with
  | nil =>
    cases e
    simp [termsValue]
  | cons t ts ih =>
    obtain ⟨scaled, hs, e⟩ := bind_eq_ok.1 e
    obtain ⟨next, hn, e⟩ := bind_eq_ok.1 e
    rw [ih e, value_add env hn, value_scale env hs]
    simp only [termsValue]
    omega

theorem value_bindVars {f g : Affine} {m : String → Affine} (e : f.bindVars m = .ok g) :
    g.value env = f.value (fun a => (m a).value env) := by
  rw [value_bindVarTerms env e, value_ofInt]
  rfl

def Sorted (ts : List Term) : Prop := ts.Pairwise (fun t u => t.atom < u.atom)

theorem mem_insertTerm {ts us : List Term} {t v : Term} (h : insertTerm ts t = .ok us) (hv : v ∈ us) :
    v.atom = t.atom ∨ ∃ u ∈ ts, v.atom = u.atom := by
  induction ts generalizing us with
  | nil =>
    cases h
    simp only [List.mem_singleton] at hv
    exact Or.inl (by rw [hv])
  | cons u ts ih =>
    unfold insertTerm at h
    split at h
    · cases h
      rcases List.mem_cons.1 hv with rfl | hv
      · exact Or.inl rfl
      · exact Or.inr ⟨v, hv, rfl⟩
    · split at h
      · obtain ⟨c, _, h⟩ := bind_eq_ok.1 h
        cases h
        rcases List.mem_cons.1 hv with rfl | hv
        · exact Or.inr ⟨u, List.mem_cons_self, rfl⟩
        · exact Or.inr ⟨v, List.mem_cons_of_mem _ hv, rfl⟩
      · obtain ⟨rest, hr, h⟩ := bind_eq_ok.1 h
        cases h
        rcases List.mem_cons.1 hv with rfl | hv
        · exact Or.inr ⟨v, List.mem_cons_self, rfl⟩
        · rcases ih hr hv with same | ⟨w, hw, same⟩
          · exact Or.inl same
          · exact Or.inr ⟨w, List.mem_cons_of_mem _ hw, same⟩

theorem sorted_insertTerm {ts us : List Term} {t : Term} (hs : Sorted ts) (h : insertTerm ts t = .ok us) :
    Sorted us := by
  induction ts generalizing us with
  | nil =>
    cases h
    simp [Sorted]
  | cons u ts ih =>
    obtain ⟨hu, hts⟩ := List.pairwise_cons.1 hs
    unfold insertTerm at h
    split at h
    · next lt =>
      cases h
      refine List.pairwise_cons.2 ⟨?_, hs⟩
      intro v hv
      rcases List.mem_cons.1 hv with rfl | hv
      · exact lt
      · exact String.lt_trans lt (hu v hv)
    · next ge =>
      split at h
      · obtain ⟨c, _, h⟩ := bind_eq_ok.1 h
        cases h
        exact List.pairwise_cons.2 ⟨hu, hts⟩
      · next ne =>
        obtain ⟨rest, hr, h⟩ := bind_eq_ok.1 h
        cases h
        refine List.pairwise_cons.2 ⟨?_, ih hts hr⟩
        intro v hv
        -- behind `u` there are old atoms and that of `t`, which neither comes before that of `u` nor equals it
        rcases mem_insertTerm hr hv with same | ⟨w, hw, same⟩
        · rw [same, ← String.not_le]
          exact fun le => ne (String.le_antisymm le (String.not_lt.1 ge))
        · rw [same]
          exact hu w hw

theorem sorted_foldlM_insertTerm {ts acc us : List Term} (hs : Sorted acc)
    (h : ts.foldlM insertTerm acc = .ok us) : Sorted us := by
  induction ts generalizing acc with
  | nil =>
    cases h
    exact hs
  | cons t ts ih =>
    rw [List.foldlM_cons] at h
    obtain ⟨next, hn, h⟩ := bind_eq_ok.1 h
    exact ih (sorted_insertTerm hs hn) h

theorem isCanonical_of_collect {ts us : List Term} (h : collect ts = .ok us) (c : Int) :
    IsCanonical ⟨us, c⟩ := by
  obtain ⟨sorted, hs, h⟩ := bind_eq_ok.1 h
  cases h
  refine ⟨List.Pairwise.filter _ (sorted_foldlM_insertTerm List.Pairwise.nil hs), ?_⟩
  intro t ht
  simpa using (List.mem_filter.1 ht).2

theorem isCanonical_add {f g h : Affine} (e : f.add g = .ok h) : h.IsCanonical := by
  obtain ⟨c, ts, _, ht, rfl⟩ := bind₂_eq_ok.1 e
  exact isCanonical_of_collect ht c

theorem isCanonical_scale {f g : Affine} {k : Int} (e : f.scale k = .ok g) : g.IsCanonical := by
  obtain ⟨scaled, _, e⟩ := bind_eq_ok.1 e
  obtain ⟨c, ts, _, ht, rfl⟩ := bind₂_eq_ok.1 e
  exact isCanonical_of_collect ht c

theorem isCanonical_addConstant {f g : Affine} {k : Int} (hf : f.IsCanonical)
    (e : f.addConstant k = .ok g) : g.IsCanonical := by
  obtain ⟨c, _, e⟩ := bind_eq_ok.1 e
  cases e
  exact hf

theorem isCanonical_bindVarTerms {m : String → Affine} {ts : List Term} {acc g : Affine}
    (ha : acc.IsCanonical) (e : bindVarTerms m acc ts = .ok g) : g.IsCanonical := by
  induction ts generalizing acc with
  | nil =>
    cases e
    exact ha
  | cons t ts ih =>
    obtain ⟨scaled, _, e⟩ := bind_eq_ok.1 e
    obtain ⟨next, hn, e⟩ := bind_eq_ok.1 e
    exact ih (isCanonical_add hn) e

theorem isCanonical_bindVars {f g : Affine} {m : String → Affine} (e : f.bindVars m = .ok g) :
    g.IsCanonical := isCanonical_bindVarTerms (isCanonical_ofInt f.constant) e

theorem evalTerms_eq_some {ts : List Term} {total n : Int}
    (e : evalTerms (fun a => some (env a)) total ts = .ok (some n)) :
    n = total + termsValue env ts := by
  induction ts generalizing total with
  | nil =>
    cases e
    simp [termsValue]
  | cons t ts ih =>
    simp only [evalTerms] at e
    obtain ⟨p, hp, e⟩ := bind_eq_ok.1 e
    obtain ⟨next, hn, e⟩ := bind_eq_ok.1 e
    obtain ⟨rfl, _⟩ := Word.mul_eq_ok.1 hp
    obtain ⟨rfl, _⟩ := Word.add_eq_ok.1 hn
    rw [ih e]
    simp only [termsValue]
    omega

theorem eval_eq_some {f : Affine} {n : Int} (e : f.eval (fun a => some (env a)) = .ok (some n)) :
    n = f.value env := evalTerms_eq_some env e

end LoopNest.Affine

namespace LoopNest

theorem Word.checked_failsOnly (x : Int) : FailsOnlyBy .overflow (Word.checked x) := by
  intro e h
  unfold Word.checked at h
  split at h
  · cases h
  · cases h
    rfl

namespace Affine

theorem insertTerm_failsOnly (ts : List Term) (t : Term) : FailsOnlyBy .overflow (insertTerm ts t) := by
  induction ts with
  | nil => exact .ok _
  | cons u us ih =>
    rw [insertTerm]
    split
    · exact .ok _
    · split
      · exact (Word.checked_failsOnly _).bind fun _ _ => .ok _
      · exact ih.bind fun _ _ => .ok _

theorem foldlM_insertTerm_failsOnly (ts acc : List Term) : FailsOnlyBy .overflow (ts.foldlM insertTerm acc) := by
  induction ts generalizing acc with
  | nil => exact .ok _
  | cons t ts ih =>
    rw [List.foldlM_cons]
    exact (insertTerm_failsOnly acc t).bind fun next _ => ih next

theorem collect_failsOnly (ts : List Term) : FailsOnlyBy .overflow (collect ts) :=
  (foldlM_insertTerm_failsOnly ts []).bind fun _ _ => .ok _

theorem add_failsOnly (f g : Affine) : FailsOnlyBy .overflow (f.add g) :=
  (Word.checked_failsOnly _).bind fun _ _ => (collect_failsOnly _).bind fun _ _ => .ok _

theorem scaleTerms_failsOnly (k : Int) (ts : List Term) : FailsOnlyBy .overflow (scaleTerms k ts) := by
  induction ts with
  | nil => exact .ok _
  | cons t ts ih => exact (Word.checked_failsOnly _).bind fun _ _ => ih.bind fun _ _ => .ok _

theorem scale_failsOnly (f : Affine) (k : Int) : FailsOnlyBy .overflow (f.scale k) :=
  (scaleTerms_failsOnly k f.terms).bind fun _ _ => (Word.checked_failsOnly _).bind fun _ _ =>
    (collect_failsOnly _).bind fun _ _ => .ok _

theorem bindVarTerms_failsOnly (m : String → Affine) (acc : Affine) (ts : List Term) :
    FailsOnlyBy .overflow (bindVarTerms m acc ts) := by
  induction ts generalizing acc with
  | nil => exact .ok _
  | cons t ts ih =>
    exact (scale_failsOnly _ _).bind fun _ _ => (add_failsOnly _ _).bind fun next _ => ih next

theorem bindVars_failsOnly (f : Affine) (m : String → Affine) : FailsOnlyBy .overflow (f.bindVars m) :=
  bindVarTerms_failsOnly m _ _

end Affine

end LoopNest

import LoopNest.Affine.Lemmas

namespace LoopNest.Affine

def Over (f : Affine) (names : List String) : Prop := ∀ a ∈ f.atoms, a ∈ names

instance (f : Affine) (names : List String) : Decidable (f.Over names) :=
  inferInstanceAs (Decidable (∀ a ∈ f.atoms, a ∈ names))

theorem over_ofInt (c : Int) (names : List String) : (ofInt c).Over names := by
  simp [Over, ofInt, atoms]

theorem over_var {a : String} {names : List String} (h : a ∈ names) : (var a).Over names := by
  simpa [Over, var, atoms] using h

theorem Over.mono {f : Affine} {names more : List String} (h : f.Over names) (hs : ∀ a ∈ names, a ∈ more) :
    f.Over more := fun a ha => hs a (h a ha)

theorem over_iff {f : Affine} {names : List String} : f.Over names ↔ ∀ t ∈ f.terms, t.atom ∈ names := by
  simp [Over, atoms]

theorem over_foldlM_insertTerm {names : List String} {ts acc us : List Term}
    (ha : ∀ t ∈ acc, t.atom ∈ names) (ht : ∀ t ∈ ts, t.atom ∈ names)
    (h : ts.foldlM insertTerm acc = .ok us) : ∀ t ∈ us, t.atom ∈ names := by
  induction ts generalizing acc with
  | nil => cases h; exact ha
  | cons t ts ih =>
    rw [List.foldlM_cons] at h
    obtain ⟨next, hn, h⟩ := bind_eq_ok.1 h
    refine ih ?_ (fun u hu => ht u (List.mem_cons_of_mem _ hu)) h
    intro u hu
    rcases mem_insertTerm hn hu with he | ⟨w, hw, he⟩
    · exact he ▸ ht t List.mem_cons_self
    · exact he ▸ ha w hw

theorem over_collect {names : List String} {ts us : List Term} (ht : ∀ t ∈ ts, t.atom ∈ names)
    (h : collect ts = .ok us) : ∀ t ∈ us, t.atom ∈ names := by
  obtain ⟨sorted, hs, h⟩ := bind_eq_ok.1 h
  cases h
  intro t hu
  exact over_foldlM_insertTerm (fun _ h => absurd h List.not_mem_nil) ht hs t (List.mem_filter.1 hu).1

theorem over_add {f g h : Affine} {names : List String} (hf : f.Over names) (hg : g.Over names)
    (e : f.add g = .ok h) : h.Over names := by
  obtain ⟨c, ts, -, ht, rfl⟩ := bind₂_eq_ok.1 e
  refine over_iff.2 (over_collect ?_ ht)
  intro t h
  rcases List.mem_append.1 h with h | h
  · exact over_iff.1 hf t h
  · exact over_iff.1 hg t h

theorem over_scaleTerms {names : List String} {k : Int} {ts us : List Term}
    (ht : ∀ t ∈ ts, t.atom ∈ names) (h : scaleTerms k ts = .ok us) : ∀ t ∈ us, t.atom ∈ names := by
  induction ts generalizing us with
  | nil => cases h; exact ht
  | cons t ts ih =>
    obtain ⟨c, rest, -, hr, rfl⟩ := bind₂_eq_ok.1 h
    intro u hu
    rcases List.mem_cons.1 hu with rfl | hu
    · exact ht t List.mem_cons_self
    · exact ih (fun v hv => ht v (List.mem_cons_of_mem _ hv)) hr u hu

theorem over_scale {f g : Affine} {k : Int} {names : List String} (hf : f.Over names)
    (e : f.scale k = .ok g) : g.Over names := by
  obtain ⟨scaled, hs, e⟩ := bind_eq_ok.1 e
  obtain ⟨c, ts, -, ht, rfl⟩ := bind₂_eq_ok.1 e
  exact over_iff.2 (over_collect (over_scaleTerms (over_iff.1 hf) hs) ht)

theorem over_sub {f g h : Affine} {names : List String} (hf : f.Over names) (hg : g.Over names)
    (e : f.sub g = .ok h) : h.Over names := by
  obtain ⟨n, hn, e⟩ := bind_eq_ok.1 e
  exact over_add hf (over_scale hg hn) e

theorem over_addConstant {f g : Affine} {k : Int} {names : List String} (hf : f.Over names)
    (e : f.addConstant k = .ok g) : g.Over names := by
  obtain ⟨c, -, e⟩ := bind_eq_ok.1 e
  cases e
  exact hf

theorem over_bindVarTerms {m : String → Affine} {names : List String} {ts : List Term} {acc g : Affine}
    (ha : acc.Over names) (hm : ∀ t ∈ ts, (m t.atom).Over names) (e : bindVarTerms m acc ts = .ok g) :
    g.Over names := by
  induction ts generalizing acc with
  | nil => cases e; exact ha
  | cons t ts ih =>
    obtain ⟨scaled, hs, e⟩ := bind_eq_ok.1 e
    obtain ⟨next, hn, e⟩ := bind_eq_ok.1 e
    exact ih (over_add ha (over_scale (hm t List.mem_cons_self) hs) hn)
      (fun u hu => hm u (List.mem_cons_of_mem _ hu)) e

theorem over_bindVars {f g : Affine} {m : String → Affine} {names : List String}
    (hm : ∀ a ∈ f.atoms, (m a).Over names) (e : f.bindVars m = .ok g) : g.Over names :=
  over_bindVarTerms (over_ofInt _ _) (fun _ ht => hm _ (List.mem_map_of_mem ht)) e

theorem over_bindTerms {ε : Type} {m : String → Outcome ε Affine} {names : List String} {ts : List Term}
    {acc g : Affine} (ha : acc.Over names) (hm : ∀ a h, m a = .ok h → h.Over names)
    (e : bindTerms m acc ts = .ok g) : g.Over names := by
  induction ts generalizing acc with
  | nil => cases e; exact ha
  | cons t ts ih =>
    rw [bindTerms] at e
    obtain ⟨h, hh, e⟩ := bind_eq_ok.1 e
    simp only [bind_eq_ok, lift_eq_ok] at e
    obtain ⟨scaled, hs, next, hn, e⟩ := e
    exact ih (over_add ha (over_scale (hm _ _ hh) hs) hn) e

theorem over_tryBind {ε : Type} {f g : Affine} {m : String → Outcome ε Affine} {names : List String}
    (hm : ∀ a h, m a = .ok h → h.Over names) (e : f.tryBind m = .ok g) : g.Over names :=
  over_bindTerms (over_ofInt _ _) hm e

theorem termsValue_congr {env env' : String → Int} {ts : List Term}
    (h : ∀ t ∈ ts, env t.atom = env' t.atom) : termsValue env ts = termsValue env' ts := by
  induction ts with
  | nil => rfl
  | cons t ts ih =>
    rw [termsValue, termsValue, h t List.mem_cons_self, ih fun u hu => h u (List.mem_cons_of_mem _ hu)]

theorem value_congr {f : Affine} {names : List String} (hf : f.Over names) {env env' : String → Int}
    (h : ∀ a ∈ names, env a = env' a) : f.value env = f.value env' := by
  rw [value, value, termsValue_congr fun t ht => h _ (over_iff.1 hf t ht)]

theorem value_congr_atoms {f : Affine} {env env' : String → Int} (h : ∀ a ∈ f.atoms, env a = env' a) :
    f.value env = f.value env' := value_congr (fun _ hb => hb) h

theorem value_of_constant? {f : Affine} {c : Int} (h : f.constant? = some c) (env : String → Int) :
    f.value env = c := by
  rw [constant?] at h
  split at h
  · next hempty =>
    cases h
    simp [value, List.isEmpty_iff.1 hempty, termsValue]
  · cases h

theorem IsCanonical.nodup_atoms {f : Affine} (hf : f.IsCanonical) : f.atoms.Nodup :=
  List.pairwise_map.2 (hf.1.imp fun h => String.ne_of_lt h)

theorem not_mem_atoms_of_mentions {f : Affine} {a : String} (hf : f.IsCanonical) (h : f.mentions a = false) :
    a ∉ f.atoms := by
  intro ha
  obtain ⟨t, ht, rfl⟩ := List.mem_map.1 ha
  have hzero : f.coefficient t.atom = 0 := by simpa [mentions] using h
  rw [coefficient] at hzero
  split at hzero
  · next u hu => exact hf.2 u (List.mem_of_find?_eq_some hu) hzero
  · next hnone => simpa using List.find?_eq_none.1 hnone t ht

end LoopNest.Affine

import LoopNest.Proofs.Execution.Refinement
import LoopNest.Proofs.Kernel.Lowering
import LoopNest.Proofs.Tree.Points

namespace LoopNest

namespace KernelForm

structure IsCanonical (f : KernelForm) : Prop where
  slots : (f.terms.map Prod.fst).Nodup
  coefficients : ∀ t ∈ f.terms, t.2 ≠ 0

theorem addTerm_eq_ok {ts us : List (Nat × Int)} {slot : Nat} {c : Int} (hslot : slot ∉ ts.map Prod.fst)
    (h : addTerm ts slot c = .ok us) : us = ts ++ [(slot, c)] := by
  induction ts generalizing us with
  | nil =>
    cases h
    rfl
  | cons t ts ih =>
    simp only [List.map_cons, List.mem_cons, not_or] at hslot
    rw [addTerm, if_neg (Ne.symm hslot.1)] at h
    obtain ⟨rest, hrest, h⟩ := bind_eq_ok.1 h
    cases h
    rw [ih hslot.2 hrest, List.cons_append]

theorem plusMultipleTerms_one {acc ts us : List (Nat × Int)} (hslots : ((acc ++ ts).map Prod.fst).Nodup)
    (h : plusMultipleTerms 1 acc ts = .ok us) : us = acc ++ ts := by
  induction ts generalizing acc with
  | nil =>
    cases h
    rw [List.append_nil]
  | cons t ts ih =>
    obtain ⟨c, hc, h⟩ := bind_eq_ok.1 h
    obtain ⟨next, hn, h⟩ := bind_eq_ok.1 h
    obtain ⟨rfl, -⟩ := Word.mul_eq_ok.1 hc
    have hnew : t.1 ∉ acc.map Prod.fst := by
      rw [List.map_append, List.map_cons, List.nodup_append] at hslots
      exact fun hmem => hslots.2.2 _ hmem _ List.mem_cons_self rfl
    rw [Int.mul_one] at hn
    obtain rfl := addTerm_eq_ok hnew hn
    have happ : acc ++ t :: ts = (acc ++ [t]) ++ ts := by simp
    rw [happ] at hslots ⊢
    exact ih hslots h

theorem plusMultiple_one {f g : KernelForm} (hg : g.IsCanonical) (h : plusMultiple ⟨[], 0⟩ g 1 = .ok f) :
    f = g := by
  obtain ⟨c, hc, h⟩ := bind_eq_ok.1 h
  obtain ⟨constant, hconstant, h⟩ := bind_eq_ok.1 h
  obtain ⟨terms, hterms, h⟩ := bind_eq_ok.1 h
  obtain ⟨rfl, -⟩ := Word.mul_eq_ok.1 hc
  obtain ⟨rfl, -⟩ := Word.add_eq_ok.1 hconstant
  cases h
  have hslots : (([] ++ g.terms).map Prod.fst).Nodup := hg.slots
  rw [plusMultipleTerms_one hslots hterms, List.nil_append,
    List.filter_eq_self.2 fun t ht => by simpa using hg.coefficients t ht, Int.mul_one, Int.zero_add]

end KernelForm

namespace Numbering

variable {scope : Scope}

theorem isCanonical_of_form {f : Affine} (hf : f.IsCanonical) {g : KernelForm} (h : form scope f = .ok g) :
    g.IsCanonical := by
  obtain ⟨terms, hterms, h⟩ := bind_eq_ok.1 h
  cases h
  obtain ⟨hatoms, hcoeffs⟩ := slots_eq_ok hterms
  refine ⟨List.Nodup.of_map (fun slot => scope[slot]?) ?_, fun t ht => ?_⟩
  · rw [List.map_map]
    refine (congrArg List.Nodup hatoms).mpr (List.pairwise_map.2 (hf.1.imp fun hlt heq => ?_))
    rw [Option.some.inj heq] at hlt
    exact absurd hlt (String.lt_irrefl _)
  · have hmem := List.mem_map_of_mem (f := Prod.snd) ht
    rw [hcoeffs] at hmem
    obtain ⟨u, hu, heq⟩ := List.mem_map.1 hmem
    exact heq ▸ hf.2 u hu

theorem forms_of_expr {p : Program} {b : Bindings} (hb : ∀ v ∈ b.values, v.2.IsCanonical) {e : Expr}
    {next : Nat} {value : KernelExpr} {places : List Place} (h : b.expr p next e = .ok (value, places)) :
    ∀ f ∈ value.forms, ∃ v ∈ b.values, v.2 = f := by
  induction e generalizing next value places with
  | const v =>
    cases h
    simp [KernelExpr.forms]
  | iter name =>
    obtain ⟨f, hf, h⟩ := bind_eq_ok.1 h
    cases h
    intro g hg
    obtain rfl := List.mem_singleton.1 hg
    rw [Bindings.form, Affine.var, Bindings.sum] at hf
    split at hf
    · cases hf
    · next v hv =>
      simp only [bind_eq_ok, lift_eq_ok] at hf
      obtain ⟨acc, hacc, hf⟩ := hf
      cases hf
      -- one time the form that is bound to the iterator, which is the form itself
      have hmem := List.mem_of_find?_eq_some hv
      exact ⟨v, hmem, (KernelForm.plusMultiple_one (hb v hmem) hacc).symm⟩
  | load a =>
    obtain ⟨place, -, h⟩ := bind_eq_ok.1 h
    cases h
    simp [KernelExpr.forms]
  | binary op l r ihl ihr =>
    obtain ⟨⟨lv, ls⟩, hl, h⟩ := bind_eq_ok.1 h
    obtain ⟨⟨rv, rs⟩, hr, h⟩ := bind_eq_ok.1 h
    cases h
    intro f hf
    rcases List.mem_append.1 hf with hf | hf
    · exact ihl hl f hf
    · exact ihr hr f hf
  | neg e ih =>
    obtain ⟨⟨v, es⟩, he, h⟩ := bind_eq_ok.1 h
    cases h
    exact fun g hg => ih he g hg
  | call f e ih =>
    obtain ⟨⟨v, es⟩, he, h⟩ := bind_eq_ok.1 h
    cases h
    exact fun g hg => ih he g hg

end Numbering

theorem computes_of_visit {p : Program} {scope : Numbering.Scope} {l : Leaf}
    (hl : ∀ f ∈ l.bindings, f.IsCanonical) {i : Instance}
    (hst : Numbering.statement p scope l = .ok i.statement) {v : Visit} (hv : i.visit = .ok v) : i.Computes := by
  obtain ⟨c, hc⟩ := Numbering.fromLeaf_of_statement hst
  obtain ⟨point, -, -, hpoint, -, -, -⟩ := Instance.visit_eq_ok.1 hv
  have hcanonical : ∀ v ∈ c.iterators.zip i.statement.iterators, v.2.IsCanonical := by
    intro w hw
    obtain ⟨f, hf, hfw⟩ := (Numbering.traverses_forms scope).exists_of_mem hc.iterators (List.of_mem_zip hw).2
    exact Numbering.isCanonical_of_form (hl f hf) hfw
  intro f hf
  obtain ⟨w, hw, rfl⟩ := Numbering.forms_of_expr hcanonical hc.value f hf
  obtain ⟨n, -, hn⟩ := (KernelForm.traverses_evalAll i.env).exists_result hpoint (List.of_mem_zip hw).2
  exact ⟨n, hn⟩

theorem computes_of_tidy {p : Program} {roots : List Node} (ht : Node.TidyAll p [] roots) {k : Kernel}
    (hk : Kernel.ofTree p roots = .ok k) {t : List Instance} (htrace : k.trace = .ok t) {vs : List Visit}
    (hv : Instance.visits t = .ok vs) : ∀ i ∈ t, i.Computes := by
  intro i hi
  obtain ⟨v, -, hiv⟩ := Instance.traverses_visits.exists_result hv hi
  obtain ⟨scope, l, hl, hst⟩ := Kernel.leaf_of_trace hk htrace hi
  obtain ⟨around, htidy⟩ := Node.leafAll_tidy roots ht hl
  exact computes_of_visit htidy.canonical hst hiv

end LoopNest

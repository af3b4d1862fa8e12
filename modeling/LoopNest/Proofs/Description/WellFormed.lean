import LoopNest.Description.Resolution
import LoopNest.Proofs.Affine.Scope
import LoopNest.Proofs.Lists

namespace LoopNest

structure Access.WellFormed (buffers : List Buffer) (names : List String) (a : Access) : Prop where
  buffer : ∃ b, buffers[a.buffer]? = some b ∧ a.indices.length = b.shape.length
  inScope : ∀ f ∈ a.indices, f.Over names

namespace Expr

def iterators : Expr → List String
  | const _ => []
  | iter name => [name]
  | load _ => []
  | binary _ l r => l.iterators ++ r.iterators
  | neg e => e.iterators
  | call _ e => e.iterators

def forms : Expr → List Affine
  | const _ => []
  | iter name => [.var name]
  | load a => a.indices
  | binary _ l r => l.forms ++ r.forms
  | neg e => e.forms
  | call _ e => e.forms

structure WellFormed (buffers : List Buffer) (names : List String) (e : Expr) : Prop where
  loads : ∀ a ∈ e.loads, a.WellFormed buffers names
  iterators : ∀ x ∈ e.iterators, x ∈ names

theorem WellFormed.binary {buffers : List Buffer} {names : List String} {op : Operator} {l r : Expr}
    (hl : l.WellFormed buffers names) (hr : r.WellFormed buffers names) :
    (Expr.binary op l r).WellFormed buffers names := by
  constructor
  · intro a ha
    rcases List.mem_append.1 ha with ha | ha
    · exact hl.loads a ha
    · exact hr.loads a ha
  · intro x hx
    rcases List.mem_append.1 hx with hx | hx
    · exact hl.iterators x hx
    · exact hr.iterators x hx

theorem WellFormed.left {buffers : List Buffer} {names : List String} {op : Operator} {l r : Expr}
    (h : (Expr.binary op l r).WellFormed buffers names) : l.WellFormed buffers names :=
  ⟨fun a ha => h.loads a (List.mem_append_left _ ha), fun x hx => h.iterators x (List.mem_append_left _ hx)⟩

theorem WellFormed.right {buffers : List Buffer} {names : List String} {op : Operator} {l r : Expr}
    (h : (Expr.binary op l r).WellFormed buffers names) : r.WellFormed buffers names :=
  ⟨fun a ha => h.loads a (List.mem_append_right _ ha), fun x hx => h.iterators x (List.mem_append_right _ hx)⟩

theorem WellFormed.over_forms {buffers : List Buffer} {names : List String} {e : Expr}
    (he : e.WellFormed buffers names) : ∀ f ∈ e.forms, f.Over names := by
  induction e with
  | const v => exact fun _ hf => absurd hf List.not_mem_nil
  | iter name =>
    intro f hf
    rw [List.mem_singleton.1 hf]
    exact Affine.over_var (he.iterators name List.mem_cons_self)
  | load a => exact (he.loads a List.mem_cons_self).inScope
  | binary op l r ihl ihr =>
    intro f hf
    exact (List.mem_append.1 hf).elim (ihl he.left f) (ihr he.right f)
  | neg e ih => exact ih ⟨he.loads, he.iterators⟩
  | call g e ih => exact ih ⟨he.loads, he.iterators⟩

end Expr

def Dimension.Nested (around : List String) : List Dimension → Prop
  | [] => True
  | d :: ds => d.lower.Over around ∧ d.upper.Over around ∧ Nested (d.name :: around) ds

def Computation.forms (c : Computation) : List Affine := c.expr.forms ++ c.store.indices

structure Computation.WellFormed (buffers : List Buffer) (c : Computation) : Prop where
  distinct : c.iterators.Nodup
  nested : Dimension.Nested [] c.domain
  store : c.store.WellFormed buffers c.iterators
  expr : c.expr.WellFormed buffers c.iterators

theorem Computation.WellFormed.over_forms {buffers : List Buffer} {c : Computation} (hc : c.WellFormed buffers) :
    ∀ f ∈ c.forms, f.Over c.iterators := by
  intro f hf
  rcases List.mem_append.1 hf with hf | hf
  · exact hc.expr.over_forms f hf
  · exact hc.store.inScope f hf

def Program.WellFormed (p : Program) : Prop := ∀ c ∈ p.computations, c.WellFormed p.buffers

namespace Description

variable {s : Scope}

theorem over_affine {text : String} {f : Affine} (h : s.affine text = .ok f) : f.Over s.iterators := by
  obtain ⟨g, -, h⟩ := bind_eq_ok.1 h
  refine Affine.over_tryBind ?_ h
  intro a f hf
  rw [Scope.resolve] at hf
  split at hf
  · cases hf
    exact Affine.over_ofInt _ _
  · split at hf
    · next hmem =>
      cases hf
      exact Affine.over_var (by simpa using hmem)
    · cases hf

theorem traverses_affines (s : Scope) : Traverses s.affine s.affines := ⟨rfl, fun _ _ => rfl⟩

theorem over_affines {texts : List String} {fs : List Affine} (h : s.affines texts = .ok fs) :
    ∀ f ∈ fs, f.Over s.iterators := by
  intro f hf
  obtain ⟨text, -, htext⟩ := (traverses_affines s).exists_of_mem h hf
  exact over_affine htext

theorem wellFormed_access {buffers : List LoopNest.Buffer} {d : Access} {a : LoopNest.Access}
    (h : resolveAccess s buffers d = .ok a) : a.WellFormed buffers s.iterators := by
  rw [resolveAccess] at h
  split at h
  · cases h
  · next i hi =>
    obtain ⟨b, hb, -⟩ := exists_of_position? hi
    simp only [hb] at h
    split at h
    · cases h
    · next hrank =>
      obtain ⟨fs, hf, h⟩ := bind_eq_ok.1 h
      cases h
      have hlen := (traverses_affines s).length_eq hf
      exact ⟨⟨b, hb, hlen.trans (Decidable.not_not.1 hrank).symm⟩, over_affines hf⟩

theorem wellFormed_expr {buffers : List LoopNest.Buffer} {d : Expr} {e : LoopNest.Expr}
    (h : resolveExpr s buffers d = .ok e) : e.WellFormed buffers s.iterators := by
  fun_induction resolveExpr s buffers d generalizing e with
  | case1 v =>
    cases h
    exact ⟨fun _ h => absurd h List.not_mem_nil, fun _ h => absurd h List.not_mem_nil⟩
  | case2 name hmem =>
    cases h
    refine ⟨fun _ h => absurd h List.not_mem_nil, ?_⟩
    intro x hx
    rw [List.mem_singleton.1 hx]
    simpa using hmem
  | case3 => cases h
  | case4 d =>
    obtain ⟨a, ha, h⟩ := bind_eq_ok.1 h
    cases h
    refine ⟨?_, fun _ h => absurd h List.not_mem_nil⟩
    intro b hb
    rw [List.mem_singleton.1 hb]
    exact wellFormed_access ha
  | case5 => cases h
  | case6 op l r o _ ihl ihr =>
    obtain ⟨le, re, hl, hr, rfl⟩ := bind₂_eq_ok.1 h
    exact (ihl hl).binary (ihr hr)
  | case7 d ih =>
    obtain ⟨a, ha, h⟩ := bind_eq_ok.1 h
    cases h
    exact ⟨(ih ha).loads, (ih ha).iterators⟩
  | case8 => cases h
  | case9 name f _ d ih =>
    obtain ⟨a, ha, h⟩ := bind_eq_ok.1 h
    cases h
    exact ⟨(ih ha).loads, (ih ha).iterators⟩
  | case10 => cases h

theorem resolveDomain_eq_ok {done domain : List Dimension} {is : List Iterator}
    (h : resolveDomain s done is = .ok domain) (hd : (done.map Dimension.name).Nodup) :
    ∃ rest, domain = done ++ rest ∧ (domain.map Dimension.name).Nodup ∧
      Dimension.Nested (done.map Dimension.name).reverse rest := by
  induction is generalizing done with
  | nil =>
    cases h
    exact ⟨[], by simp, hd, trivial⟩
  | cons i is ih =>
    rw [resolveDomain] at h
    split at h
    · cases h
    · next hfree =>
      obtain ⟨lower, hl, h⟩ := bind_eq_ok.1 h
      obtain ⟨upper, hu, h⟩ := bind_eq_ok.1 h
      have hnew : i.name ∉ done.map Dimension.name := by
        simp only [Bool.or_eq_true, List.contains_iff_mem, not_or] at hfree
        exact hfree.1
      have hd' : ((done ++ [(⟨i.name, lower, upper⟩ : Dimension)]).map Dimension.name).Nodup := by
        rw [List.map_append, List.nodup_append]
        refine ⟨hd, by simp, ?_⟩
        intro a ha b hb hab
        have hb : b = i.name := List.mem_singleton.1 hb
        exact hnew (hb ▸ hab ▸ ha)
      obtain ⟨rest, rfl, hnodup, hnested⟩ := ih h hd'
      refine ⟨⟨i.name, lower, upper⟩ :: rest, by simp, hnodup, ?_, ?_, ?_⟩
      · exact (over_affine hl).mono fun a ha => List.mem_reverse.2 ha
      · exact (over_affine hu).mono fun a ha => List.mem_reverse.2 ha
      · simpa using hnested

theorem wellFormed_computation {params : List (String × Int)} {buffers : List LoopNest.Buffer}
    {earlier : List LoopNest.Computation} {d : Computation} {c : LoopNest.Computation}
    (h : resolveComputation params buffers earlier d = .ok c) : c.WellFormed buffers := by
  obtain ⟨domain, hd, h⟩ := bind_eq_ok.1 h
  obtain ⟨store, hs, h⟩ := bind_eq_ok.1 h
  split at h
  · cases h
  · obtain ⟨expr, he, h⟩ := bind_eq_ok.1 h
    obtain ⟨after, -, h⟩ := bind_eq_ok.1 h
    cases h
    obtain ⟨rest, rfl, hnodup, hnested⟩ := resolveDomain_eq_ok hd List.nodup_nil
    exact ⟨hnodup, hnested, wellFormed_access hs, wellFormed_expr he⟩

theorem wellFormed_computations {params : List (String × Int)} {buffers : List LoopNest.Buffer}
    {done cs : List LoopNest.Computation} {ds : List Computation}
    (h : resolveComputations params buffers done ds = .ok cs) (hd : ∀ c ∈ done, c.WellFormed buffers) :
    ∀ c ∈ cs, c.WellFormed buffers := by
  induction ds generalizing done with
  | nil => cases h; exact hd
  | cons d ds ih =>
    obtain ⟨c, hc, h⟩ := bind_eq_ok.1 h
    split at h
    · cases h
    · refine ih h ?_
      intro x hx
      rcases List.mem_append.1 hx with hx | hx
      · exact hd x hx
      · rw [List.mem_singleton.1 hx]
        exact wellFormed_computation hc

theorem wellFormed_of_build {d : Description} {p : Program} (h : d.build = .ok p) : p.WellFormed := by
  rw [build] at h
  split at h
  · cases h
  · obtain ⟨buffers, -, h⟩ := bind_eq_ok.1 h
    obtain ⟨computations, hc, h⟩ := bind_eq_ok.1 h
    cases h
    exact wellFormed_computations hc fun _ h => absurd h List.not_mem_nil

end Description

end LoopNest

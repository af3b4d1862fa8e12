import LoopNest.Proofs.Affine.Renaming
import LoopNest.Proofs.Description.WellFormed

namespace LoopNest

structure Computation.Normal (c : Computation) : Prop where
  bounds : ∀ d ∈ c.domain, d.lower.Normal ∧ d.upper.Normal
  forms : ∀ f ∈ c.forms, f.Normal

namespace Dimension

structure Renames (ρ : String → String) (d e : Dimension) : Prop where
  name : e.name = ρ d.name
  lower : d.lower.Renames ρ e.lower
  upper : d.upper.Renames ρ e.upper

def Over (d : Dimension) (names : List String) : Prop := d.lower.Over names ∧ d.upper.Over names

theorem Renames.trans {ρ σ : String → String} {d e g : Dimension} (hde : d.Renames ρ e) (heg : e.Renames σ g) :
    d.Renames (σ ∘ ρ) g where
  name := by rw [heg.name, hde.name, Function.comp_apply]
  lower := hde.lower.trans heg.lower
  upper := hde.upper.trans heg.upper

theorem Renames.congr {ρ σ : String → String} {d e : Dimension} (hde : d.Renames ρ e) {names : List String}
    (hover : d.Over names) (hname : d.name ∈ names) (h : ∀ a ∈ names, ρ a = σ a) : d.Renames σ e where
  name := hde.name.trans (h d.name hname)
  lower := hde.lower.congr hover.1 h
  upper := hde.upper.congr hover.2 h

theorem names_of_renames {ρ : String → String} {ds es : List Dimension} (h : List.Forall₂ (Renames ρ) ds es) :
    es.map name = (ds.map name).map ρ := by
  induction h with
  | nil => rfl
  | cons hd _ ih => rw [List.map_cons, List.map_cons, List.map_cons, hd.name, ih]

theorem over_of_nested {around : List String} {ds : List Dimension} (h : Nested around ds) :
    ∀ d ∈ ds, d.Over (around ++ ds.map name) := by
  induction ds generalizing around with
  | nil => simp
  | cons d ds ih =>
    obtain ⟨hlower, hupper, hrest⟩ := h
    have hsubset : d.name :: around ++ ds.map name ⊆ around ++ (d :: ds).map name := by
      rw [List.map_cons]
      exact List.perm_middle.symm.subset
    refine List.forall_mem_cons.2 ⟨?_, fun e he => ?_⟩
    · exact ⟨hlower.mono fun a ha => List.mem_append_left _ ha, hupper.mono fun a ha => List.mem_append_left _ ha⟩
    · obtain ⟨hl, hu⟩ := ih hrest e he
      exact ⟨hl.mono hsubset, hu.mono hsubset⟩

theorem nested_take {around : List String} {ds : List Dimension} (h : Nested around ds) (k : Nat) :
    Nested around (ds.take k) := by
  induction ds generalizing around k with
  | nil => simp [Nested]
  | cons d ds ih =>
    cases k with
    | zero => trivial
    | succ k => exact ⟨h.1, h.2.1, ih h.2.2 k⟩

end Dimension

structure Computation.SharesLoops (c other : Computation) (level : Nat) : Prop where
  depth : level < c.depth
  otherDepth : level < other.depth
  renames : ∃ ρ, List.Forall₂ (Dimension.Renames ρ) (c.domain.take (level + 1)) (other.domain.take (level + 1))

def Program.SharesEarlier (p : Program) : Prop :=
  ∀ (index : Nat) (c : Computation) (i level : Nat), p.computations[index]? = some c →
    c.after = some (i, level) → i < index ∧ ∃ other, p.computations[i]? = some other ∧ c.SharesLoops other level

namespace Description

variable {s : Scope}

theorem normal_affine {text : String} {f : Affine} (h : s.affine text = .ok f) : f.Normal := by
  obtain ⟨g, hg, h⟩ := bind_eq_ok.1 h
  exact Affine.normal_tryBind (Affine.normal_of_parse (Outcome.mapRefusal_eq_ok.1 hg)) h

theorem normal_access {buffers : List LoopNest.Buffer} {d : Access} {a : LoopNest.Access}
    (h : resolveAccess s buffers d = .ok a) : ∀ f ∈ a.indices, f.Normal := by
  rw [resolveAccess] at h
  split at h
  · cases h
  · next i hi =>
    obtain ⟨b, hb, -⟩ := exists_of_position? hi
    simp only [hb] at h
    split at h
    · cases h
    · obtain ⟨fs, hfs, h⟩ := bind_eq_ok.1 h
      cases h
      intro f hf
      obtain ⟨text, -, htext⟩ := (traverses_affines s).exists_of_mem hfs hf
      exact normal_affine htext

theorem normal_expr {buffers : List LoopNest.Buffer} {d : Expr} {e : LoopNest.Expr}
    (h : resolveExpr s buffers d = .ok e) : ∀ f ∈ e.forms, f.Normal := by
  fun_induction resolveExpr s buffers d generalizing e with
  | case1 v =>
    cases h
    exact fun _ hf => absurd hf List.not_mem_nil
  | case2 name hmem =>
    cases h
    intro f hf
    rw [List.mem_singleton.1 hf]
    exact Affine.normal_var name
  | case3 => cases h
  | case4 d =>
    obtain ⟨a, ha, h⟩ := bind_eq_ok.1 h
    cases h
    exact normal_access ha
  | case5 => cases h
  | case6 op l r o _ ihl ihr =>
    obtain ⟨le, re, hl, hr, rfl⟩ := bind₂_eq_ok.1 h
    exact List.forall_mem_append.2 ⟨ihl hl, ihr hr⟩
  | case7 d ih =>
    obtain ⟨a, ha, h⟩ := bind_eq_ok.1 h
    cases h
    exact fun f hf => ih ha f hf
  | case8 => cases h
  | case9 name f _ d ih =>
    obtain ⟨a, ha, h⟩ := bind_eq_ok.1 h
    cases h
    exact fun f hf => ih ha f hf
  | case10 => cases h

theorem normal_domain {done domain : List Dimension} {is : List Iterator}
    (h : resolveDomain s done is = .ok domain) (hdone : ∀ d ∈ done, d.lower.Normal ∧ d.upper.Normal) :
    ∀ d ∈ domain, d.lower.Normal ∧ d.upper.Normal := by
  induction is generalizing done with
  | nil =>
    cases h
    exact hdone
  | cons i is ih =>
    rw [resolveDomain] at h
    split at h
    · cases h
    · obtain ⟨lower, hlower, h⟩ := bind_eq_ok.1 h
      obtain ⟨upper, hupper, h⟩ := bind_eq_ok.1 h
      exact ih h (List.forall_mem_append.2
        ⟨hdone, List.forall_mem_singleton.2 ⟨normal_affine hlower, normal_affine hupper⟩⟩)

theorem resolveComputation_eq_ok {params : List (String × Int)} {buffers : List LoopNest.Buffer}
    {earlier : List LoopNest.Computation} {d : Computation} {c : LoopNest.Computation}
    (h : resolveComputation params buffers earlier d = .ok c) :
    c.Normal ∧ resolveAfter c.name c.domain earlier d.after = .ok c.after := by
  obtain ⟨domain, hdomain, h⟩ := bind_eq_ok.1 h
  obtain ⟨store, hstore, h⟩ := bind_eq_ok.1 h
  split at h
  · cases h
  · obtain ⟨expr, hexpr, h⟩ := bind_eq_ok.1 h
    obtain ⟨after, hafter, h⟩ := bind_eq_ok.1 h
    cases h
    refine ⟨⟨normal_domain hdomain fun _ h => absurd h List.not_mem_nil, ?_⟩, hafter⟩
    exact List.forall_mem_append.2 ⟨normal_expr hexpr, normal_access hstore⟩

theorem name_of_resolveComputation {params : List (String × Int)} {buffers : List LoopNest.Buffer}
    {earlier : List LoopNest.Computation} {d : Computation} {c : LoopNest.Computation}
    (h : resolveComputation params buffers earlier d = .ok c) : c.name = d.name := by
  obtain ⟨domain, -, h⟩ := bind_eq_ok.1 h
  obtain ⟨store, -, h⟩ := bind_eq_ok.1 h
  split at h
  · cases h
  · obtain ⟨expr, -, h⟩ := bind_eq_ok.1 h
    obtain ⟨after, -, h⟩ := bind_eq_ok.1 h
    cases h
    rfl

theorem isPrefix_of_resolveComputations {params : List (String × Int)} {buffers : List LoopNest.Buffer}
    {done cs : List LoopNest.Computation} {ds : List Computation}
    (h : resolveComputations params buffers done ds = .ok cs) : done <+: cs := by
  induction ds generalizing done with
  | nil =>
    cases h
    exact List.prefix_refl _
  | cons d ds ih =>
    obtain ⟨c, -, h⟩ := bind_eq_ok.1 h
    split at h
    · cases h
    · exact (List.prefix_append done [c]).trans (ih h)

theorem exists_resolved {params : List (String × Int)} {buffers : List LoopNest.Buffer}
    {done cs : List LoopNest.Computation} {ds : List Computation}
    (h : resolveComputations params buffers done ds = .ok cs) {index : Nat} {c : LoopNest.Computation}
    (hc : cs[index]? = some c) (hindex : done.length ≤ index) :
    ∃ d, resolveComputation params buffers (cs.take index) d = .ok c := by
  induction ds generalizing done with
  | nil =>
    cases h
    rw [List.getElem?_eq_none hindex] at hc
    cases hc
  | cons d ds ih =>
    obtain ⟨first, hfirst, h⟩ := bind_eq_ok.1 h
    split at h
    · cases h
    · by_cases hlength : index = done.length
      · obtain ⟨rest, rfl⟩ := isPrefix_of_resolveComputations h
        rw [hlength, List.append_assoc, List.singleton_append, getElem?_length] at hc
        cases hc
        refine ⟨d, ?_⟩
        rw [hlength, List.append_assoc, List.take_left]
        exact hfirst
      · refine ih h ?_
        rw [List.length_append, List.length_singleton]
        omega

theorem nodup_names_of_resolveComputations {params : List (String × Int)} {buffers : List LoopNest.Buffer}
    {done cs : List LoopNest.Computation} {ds : List Computation}
    (hdone : (done.map LoopNest.Computation.name).Nodup) (h : resolveComputations params buffers done ds = .ok cs) :
    (cs.map LoopNest.Computation.name).Nodup := by
  induction ds generalizing done with
  | nil =>
    cases h
    exact hdone
  | cons d ds ih =>
    obtain ⟨first, hfirst, h⟩ := bind_eq_ok.1 h
    split at h
    · cases h
    · next hnew =>
      refine ih (nodup_map_snoc.2 ⟨hdone, fun hmem => hnew ?_⟩) h
      simpa [name_of_resolveComputation hfirst] using hmem

theorem nodup_names_of_build {d : Description} {p : Program} (h : d.build = .ok p) :
    (p.computations.map LoopNest.Computation.name).Nodup := by
  rw [build] at h
  split at h
  · cases h
  · obtain ⟨buffers, -, h⟩ := bind_eq_ok.1 h
    obtain ⟨computations, hcs, h⟩ := bind_eq_ok.1 h
    cases h
    refine nodup_names_of_resolveComputations ?_ hcs
    exact List.nodup_nil

theorem nodup_names_of_resolveBuffers {params : List (String × Int)} {done bs : List LoopNest.Buffer}
    {ds : List Buffer} (hdone : (done.map LoopNest.Buffer.name).Nodup)
    (h : resolveBuffers params done ds = .ok bs) : (bs.map LoopNest.Buffer.name).Nodup := by
  induction ds generalizing done with
  | nil =>
    cases h
    exact hdone
  | cons d ds ih =>
    obtain ⟨first, hfirst, h⟩ := bind_eq_ok.1 h
    have hname : first.name = d.name := by
      obtain ⟨shape, -, hfirst⟩ := bind_eq_ok.1 hfirst
      split at hfirst
      · cases hfirst
        rfl
      · cases hfirst
    split at h
    · cases h
    · next hnew =>
      refine ih (nodup_map_snoc.2 ⟨hdone, fun hmem => hnew ?_⟩) h
      simpa [hname] using hmem

theorem nodup_bufferNames_of_build {d : Description} {p : Program} (h : d.build = .ok p) :
    (p.buffers.map LoopNest.Buffer.name).Nodup := by
  rw [build] at h
  split at h
  · cases h
  · obtain ⟨buffers, hbuffers, h⟩ := bind_eq_ok.1 h
    obtain ⟨computations, -, h⟩ := bind_eq_ok.1 h
    cases h
    refine nodup_names_of_resolveBuffers ?_ hbuffers
    exact List.nodup_nil

theorem exists_computation_of_build {d : Description} {p : Program} (h : d.build = .ok p) {index : Nat}
    {c : LoopNest.Computation} (hc : p.computations[index]? = some c) :
    ∃ x, resolveComputation d.params p.buffers (p.computations.take index) x = .ok c := by
  rw [build] at h
  split at h
  · cases h
  · obtain ⟨buffers, -, h⟩ := bind_eq_ok.1 h
    obtain ⟨computations, hcs, h⟩ := bind_eq_ok.1 h
    cases h
    exact exists_resolved hcs hc (Nat.zero_le _)

theorem normal_of_build {d : Description} {p : Program} (h : d.build = .ok p) :
    ∀ c ∈ p.computations, c.Normal := by
  intro c hc
  obtain ⟨index, hindex⟩ := List.mem_iff_getElem?.1 hc
  obtain ⟨x, hx⟩ := exists_computation_of_build h hindex
  exact (resolveComputation_eq_ok hx).1

section Sharing

theorem map_renameBy {mine theirs : List Dimension} (hmine : (mine.map Dimension.name).Nodup)
    (hlength : mine.length = theirs.length) :
    (mine.map Dimension.name).map (renameBy mine theirs) = theirs.map Dimension.name := by
  induction mine generalizing theirs with
  | nil =>
    rw [List.eq_nil_of_length_eq_zero hlength.symm]
    rfl
  | cons m ms ih =>
    obtain ⟨t, ts, rfl⟩ := List.exists_cons_of_length_eq_add_one hlength.symm
    obtain ⟨hnew, hms⟩ := List.nodup_cons.1 hmine
    have hself : renameBy (m :: ms) (t :: ts) m.name = t.name := by simp [renameBy]
    have hrest : ∀ a ∈ ms.map Dimension.name, renameBy (m :: ms) (t :: ts) a = renameBy ms ts a := by
      intro a ha
      have hne : m.name ≠ a := by
        rintro rfl
        exact hnew ha
      simp [renameBy, hne]
    rw [List.map_cons, List.map_cons, List.map_cons, hself, List.map_congr_left hrest,
      ih hms (Nat.succ.inj hlength)]

theorem renames_of_sameBounds {ρ : String → String} {names : List String} (hρ : (names.map ρ).Nodup)
    {mine theirs : List Dimension} (hlength : mine.length = theirs.length)
    (hnames : (mine.map Dimension.name).map ρ = theirs.map Dimension.name)
    (hnormal : ∀ d ∈ mine, d.lower.Normal ∧ d.upper.Normal) (hover : ∀ d ∈ mine, d.Over names)
    (h : sameBounds ρ mine theirs = .ok true) : List.Forall₂ (Dimension.Renames ρ) mine theirs := by
  have hrenames {f g : Affine} (hf : f.Normal) (hin : f.Over names)
      (hg : f.bindVars (fun a => .var (ρ a)) = .ok g) : f.Renames ρ g :=
    Affine.renames_of_bindVars hf (List.Nodup.map_on (fun a ha b hb hab =>
      List.inj_on_of_nodup_map hρ (hin a ha) (hin b hb) hab) hf.nodup_atoms) hg
  induction mine generalizing theirs with
  | nil =>
    rw [List.eq_nil_of_length_eq_zero hlength.symm]
    exact .nil
  | cons m ms ih =>
    obtain ⟨t, ts, rfl⟩ := List.exists_cons_of_length_eq_add_one hlength.symm
    obtain ⟨⟨hlowerNormal, hupperNormal⟩, hnormal⟩ := List.forall_mem_cons.1 hnormal
    obtain ⟨hin, hover⟩ := List.forall_mem_cons.1 hover
    obtain ⟨hname, hnames⟩ := List.cons.inj hnames
    rw [sameBounds] at h
    obtain ⟨lower, hlower, h⟩ := bind_eq_ok.1 h
    split at h
    · cases h
    · next hsameLower =>
      obtain ⟨upper, hupper, h⟩ := bind_eq_ok.1 h
      split at h
      · cases h
      · next hsameUpper =>
        obtain rfl := not_not.1 hsameLower
        obtain rfl := not_not.1 hsameUpper
        exact .cons ⟨hname.symm, hrenames hlowerNormal hin.1 hlower, hrenames hupperNormal hin.2 hupper⟩
          (ih (Nat.succ.inj hlength) hnames hnormal hover h)

theorem checkSharing_eq_ok {name : String} {domain : List Dimension} {other : LoopNest.Computation} {level : Nat}
    (h : checkSharing name domain other level = .ok ()) : level < domain.length ∧ level < other.domain.length ∧
      sameBounds (renameBy (domain.take (level + 1)) (other.domain.take (level + 1))) (domain.take (level + 1))
        (other.domain.take (level + 1)) = .ok true := by
  have hincompatible : (if level = Decimal.word64Max then .error (.fault .overflow)
      else Outcome.refuse (.incompatibleSharedLoops name other.name (level + 1)) : Resolved Unit) ≠ .ok () := by
    split <;> exact nofun
  rw [checkSharing] at h
  simp only at h
  split at h
  · exact absurd h hincompatible
  · next hdepth =>
    obtain ⟨same, hsame, h⟩ := bind_eq_ok.1 h
    split at h
    · next htrue =>
      simp only [Bool.or_eq_true, decide_eq_true_eq, not_or, Nat.not_le] at hdepth
      exact ⟨hdepth.1, hdepth.2, htrue ▸ lift_eq_ok.1 hsame⟩
    · exact absurd h hincompatible

theorem resolveAfter_eq_ok {name : String} {domain : List Dimension} {earlier : List LoopNest.Computation}
    {after : Option After} {i level : Nat} (h : resolveAfter name domain earlier after = .ok (some (i, level))) :
    ∃ other, earlier[i]? = some other ∧ checkSharing name domain other level = .ok () := by
  cases after with
  | none => cases h
  | some a =>
    rw [resolveAfter] at h
    split at h
    · cases h
    · split at h
      · cases h
      · next j _ other hother =>
        obtain ⟨_, hcheck, h⟩ := bind_eq_ok.1 h
        cases h
        exact ⟨other, hother, hcheck⟩

theorem sharesLoops_of_check {name : String} {buffers : List LoopNest.Buffer} {c other : LoopNest.Computation}
    {level : Nat} (hc : c.WellFormed buffers) (hother : other.WellFormed buffers) (hnormal : c.Normal)
    (h : checkSharing name c.domain other level = .ok ()) : c.SharesLoops other level := by
  obtain ⟨hdepth, hotherDepth, hsame⟩ := checkSharing_eq_ok h
  have hlength : (c.domain.take (level + 1)).length = (other.domain.take (level + 1)).length := by
    rw [List.length_take, List.length_take]
    omega
  have hdistinct {x : LoopNest.Computation} (hx : x.WellFormed buffers) :
      ((x.domain.take (level + 1)).map Dimension.name).Nodup := by
    rw [List.map_take]
    exact hx.distinct.sublist (List.take_sublist _ _)
  have hnames := map_renameBy (hdistinct hc) hlength
  refine ⟨hdepth, hotherDepth, _, renames_of_sameBounds (hnames ▸ hdistinct hother) hlength hnames ?_ ?_ hsame⟩
  · exact fun d hd => hnormal.bounds d (List.mem_of_mem_take hd)
  · exact Dimension.over_of_nested (Dimension.nested_take hc.nested (level + 1))

theorem sharesEarlier_of_build {d : Description} {p : Program} (h : d.build = .ok p) : p.SharesEarlier := by
  have hwf := wellFormed_of_build h
  intro index c i level hindex hafter
  obtain ⟨x, hx⟩ := exists_computation_of_build h hindex
  obtain ⟨hnormal, hresolved⟩ := resolveComputation_eq_ok hx
  rw [hafter] at hresolved
  obtain ⟨other, hother, hcheck⟩ := resolveAfter_eq_ok hresolved
  rw [List.getElem?_take] at hother
  split at hother
  · next hlt =>
    exact ⟨hlt, other, hother, sharesLoops_of_check (hwf c (List.mem_of_getElem? hindex))
      (hwf other (List.mem_of_getElem? hother)) hnormal hcheck⟩
  · cases hother

end Sharing

end Description

end LoopNest

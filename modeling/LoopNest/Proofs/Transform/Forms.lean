import LoopNest.Proofs.Description.Sharing
import LoopNest.Proofs.Transform.Effect
import LoopNest.Proofs.Tree.Forms

namespace LoopNest

open Node

section Split

variable {hd : Header} {body body' : List Node} {taken : List String} {s : FixedRange} {factor : Nat} {tags : Tags}
  {outer inner : String} {value : Affine} {clamp : Option Affine}

theorem fits_factor (h : tileValue outer inner factor s.lower = .ok value) : Word.fits (factor : Int) = true := by
  obtain ⟨scaled, hscaled, -⟩ := bind_eq_ok.1 h
  obtain ⟨terms, hterms, -⟩ := bind_eq_ok.1 hscaled
  obtain ⟨c, rest, hc, -, -⟩ := bind₂_eq_ok.1 hterms
  obtain ⟨-, hfits⟩ := Word.mul_eq_ok.1 hc
  rwa [Int.one_mul] at hfits

theorem fits_tiles (hextent : 0 ≤ s.extent) (hfits : Word.fits s.extent = true) (hfactor : 1 < factor) :
    Word.fits (s.tiles factor) = true := by
  have hpos : (0 : Int) < factor := by omega
  have hnonneg : 0 ≤ s.tiles factor := ceilDiv_nonneg hextent hpos
  have hle : s.tiles factor ≤ s.extent := by
    rw [FixedRange.tiles, ceilDiv_le_iff hpos]
    exact le_mul_of_one_le_right hextent (by omega)
  rw [Word.fits_iff] at hfits ⊢
  simp only [Word.minValue] at hfits ⊢
  omega

theorem normal_remainder {extent : Int} (h : remainder outer factor extent = .ok clamp)
    (hfits : Word.fits extent = true) : ∀ c, clamp = some c → c.Normal := by
  rw [remainder] at h
  split at h
  · cases h
    intro c hc
    cases hc
  · obtain ⟨scaled, hscaled, h⟩ := bind_eq_ok.1 h
    obtain ⟨rest, hrest, h⟩ := bind_eq_ok.1 h
    cases h
    intro c hc
    cases hc
    obtain ⟨g, hg, hrest⟩ := bind_eq_ok.1 hrest
    exact Affine.normal_add (Affine.normal_ofInt hfits).fits (Affine.normal_scale hg).fits hrest

theorem normal_tiled (ht : Tiled taken hd body s factor outer inner value clamp body') (hclamp : hd.clamp = none)
    (hextent : 0 ≤ s.extent) (hfits : Word.fits s.extent = true) (hfactor : 1 < factor)
    (hbody : ∀ f ∈ formsAll body, f.Normal) :
    ∀ f ∈ (Node.loop (outerHeader hd s factor outer) [.loop (innerHeader factor inner clamp tags) body']).forms,
      f.Normal := by
  have hzero : Affine.zero.Normal := Affine.normal_ofInt rfl
  simp only [forms, formsAll, List.append_nil, List.forall_mem_append]
  have htiles := Affine.normal_ofInt (fits_tiles hextent hfits hfactor)
  have hfactors := Affine.normal_ofInt (fits_factor ht.value_eq)
  refine ⟨Header.forall_limits hzero htiles ?_,
    Header.forall_limits hzero hfactors (normal_remainder ht.clamp_eq hfits), ?_⟩
  · intro c hc
    cases hclamp.symm.trans hc
  · intro g hg
    obtain ⟨f, hf, hfg⟩ := formsAll_substituteAll body ht.body_eq g hg
    exact Affine.normal_bindVars (hbody f hf) hfg

end Split

section Transformations

variable {p : Program} {roots roots' : List Node} (hr : ∀ f ∈ formsAll roots, f.Normal)
include hr

theorem normal_of_replaces {n n' : Node} {hs : List Header} (h : Replaces n n' roots roots' hs)
    (hn : ∀ f ∈ n'.forms, f.Normal) : ∀ f ∈ formsAll roots', f.Normal := fun f hf =>
  (List.mem_append.1 (h.forms_subset hf)).elim (hn f) (hr f)

theorem normal_divides {factor : Nat} {tags : Tags} {hd : Header} {body : List Node} {path : Path}
    {hs : List Header} (h : Divides roots roots' factor tags hd body path hs) :
    ∀ f ∈ formsAll roots', f.Normal := by
  have hloop : ∀ f ∈ (Node.loop hd body).forms, f.Normal := fun f hf => hr f (h.occurs.forms_subset hf)
  rcases h.effect with ⟨rfl, -⟩ | ⟨s, hsplits⟩
  · exact normal_of_replaces hr (h.occurs.replaces fun _ => .loop { hd with tags } body) hloop
  · obtain ⟨outer, inner, value, clamp, body', htiled, hreplaces⟩ := hsplits.exists_tiled h.occurs
    exact normal_of_replaces hr hreplaces (normal_tiled htiled hsplits.clamp hsplits.extent hsplits.fits h.large
      fun f hf => hloop f (List.mem_append_right _ hf))

theorem normal_parallelizes {hd : Header} {body : List Node} {path : Path} {hs : List Header}
    (h : Parallelizes roots roots' hd body path hs) : ∀ f ∈ formsAll roots', f.Normal := by
  rw [h.result]
  exact normal_of_replaces hr (h.occurs.replaces_header _) fun f hf => hr f (h.occurs.forms_subset hf)

theorem normal_swaps {outer inner : Header} {mids : List Header} {body : List Node} {path rest : Path}
    {hs : List Header} (h : Swaps roots roots' outer inner mids body path rest hs) :
    ∀ f ∈ formsAll roots', f.Normal := by
  rw [h.result]
  refine normal_of_replaces hr (replaces_swap h.occurs h.inside) fun f hf => hr f (h.occurs.forms_subset ?_)
  simp only [forms, formsAll_nest, formsAll, List.mem_append, List.append_nil] at hf ⊢
  tauto

theorem normal_moves {rest : List Node} {rho : String → String} {outer kept moved : List Header} {n n' : Node}
    (h : Moves roots rest roots' rho outer kept moved n n') : ∀ f ∈ formsAll roots', f.Normal := by
  obtain ⟨path, hoccurs, -⟩ := h.from_place
  intro g hg
  rcases List.mem_append.1 (h.inserts.forms_subset hg) with hg | hg
  · obtain ⟨f, hf, hfg⟩ := forms_substitute n h.substitute g hg
    exact Affine.normal_bindVars (hr f (hoccurs.forms_subset hf)) hfg
  · exact hr g (h.removes.forms_subset hg)

theorem normal_applyTo (hsound : Sound p roots) {t : Transformation} (h : t.applyTo p roots = .ok roots') :
    ∀ f ∈ formsAll roots', f.Normal := by
  cases change_of_applyTo hsound h with
  | divides h => exact normal_divides hr h
  | parallelizes h => exact normal_parallelizes hr h
  | swaps h => exact normal_swaps hr h
  | moves h => exact normal_moves hr h

end Transformations

namespace Initial

theorem normal_loops {r : Renaming} {hs : List Header} {ds : List Dimension} (h : List.Forall₂ (LoopOf r) hs ds)
    (hds : ∀ d ∈ ds, d.lower.Normal ∧ d.upper.Normal) : ∀ f ∈ hs.flatMap Header.limits, f.Normal := by
  intro f hf
  obtain ⟨x, hx, hf⟩ := List.mem_flatMap.1 hf
  obtain ⟨d, hd, hloop⟩ := exists_of_forall₂ h hx
  obtain ⟨hlower, hupper⟩ := hds d hd
  have hupper := Affine.normal_bindVars hupper hloop.upper
  refine Header.forall_limits (Affine.normal_bindVars hlower hloop.lower) hupper (fun c hc => ?_) f hf
  cases hloop.clamp.symm.trans hc

theorem normal_place {s s' : State} {index : Nat} {c : Computation} {buffers : List Buffer}
    (hc : c.WellFormed buffers) (hnormal : c.Normal) (h : place s index c = .ok s')
    (hs : ∀ f ∈ formsAll s.roots, f.Normal) : ∀ f ∈ formsAll s'.roots, f.Normal := by
  obtain ⟨path, shared, fresh, n, r, -, -, hplaced, hloops, -⟩ := placed_of_place hc h
  intro f hf
  rcases List.mem_append.1 (hplaced.inserts.forms_subset hf) with hf | hf
  · have hforms := congrArg formsAll hplaced.node
    rw [formsAll_nest, formsAll, formsAll, formsAll, formsAll, List.append_nil, List.append_nil] at hforms
    rw [← hforms] at hf
    rcases List.mem_append.1 hf with hf | hf
    · exact normal_loops hloops (fun d hd => hnormal.bounds d (List.drop_subset _ _ hd)) f hf
    · obtain ⟨x, -, rfl⟩ := List.mem_map.1 hf
      exact Affine.normal_var _
  · exact hs f hf

theorem normal_placeAll {p : Program} (hp : p.WellFormed) (hnormal : ∀ c ∈ p.computations, c.Normal) {s s' : State}
    {index : Nat} {cs : List Computation} (hcs : cs ⊆ p.computations) (h : placeAll s index cs = .ok s')
    (hs : ∀ f ∈ formsAll s.roots, f.Normal) : ∀ f ∈ formsAll s'.roots, f.Normal := by
  induction cs generalizing s index with
  | nil =>
    cases h
    exact hs
  | cons c cs ih =>
    obtain ⟨next, hnext, h⟩ := bind_eq_ok.1 h
    obtain ⟨hc, hcs⟩ := List.cons_subset.1 hcs
    exact ih hcs h (normal_place (hp c hc) (hnormal c hc) hnext hs)

end Initial

theorem normal_nesting {p : Program} (hp : p.WellFormed) (hnormal : ∀ c ∈ p.computations, c.Normal)
    {roots : List Node} (h : p.nesting = .ok roots) : ∀ f ∈ formsAll roots, f.Normal := by
  obtain ⟨s, hs, hroots⟩ := bind_eq_ok.1 h
  cases hroots
  exact Initial.normal_placeAll hp hnormal (List.Subset.refl _) hs fun f hf => absurd hf List.not_mem_nil

theorem Reshaped.normal {p : Program} (hp : p.WellFormed) (hnormal : ∀ c ∈ p.computations, c.Normal)
    {roots : List Node} (h : Reshaped p roots) : ∀ f ∈ formsAll roots, f.Normal := by
  induction h with
  | initial h => exact normal_nesting hp hnormal h
  | step t hr h ih => exact normal_applyTo ih (hr.sound hp) h

end LoopNest

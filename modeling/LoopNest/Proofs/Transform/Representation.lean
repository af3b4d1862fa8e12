import LoopNest.Proofs.Dataflow.Legality
import LoopNest.Proofs.Transform.Effect

/-!
What all trees of a program have in common. Lookup by name, the tags and the lowering of a tree rely on it; no
transformation checks it, and each of them keeps it.
-/

namespace LoopNest

open Node

namespace Given

variable {factor : Nat} {body body' : List Node} {tags : Tags}

theorem sequential (h : Given factor body tags) : tags.parallel = false := by
  cases h <;> rfl

theorem of_body (h : Given factor body tags) (hbody : onlyLeaves body' = onlyLeaves body) :
    Given factor body' tags := by
  cases h with
  | nothing => exact .nothing
  | unroll => exact .unroll
  | vectorize honly => exact .vectorize (hbody.trans honly)

theorem fits {h : Header} (hg : Given factor body h.tags)
    (hextent : ∀ env, h.upper.value env - h.lower.value env = factor) : h.Fits body := by
  generalize htags : h.tags = tags at hg
  cases hg with
  | nothing => exact Header.fits_of_untagged htags
  | unroll =>
    refine ⟨by simp [htags], by simp [htags], by simp [htags], fun w hw env => ?_⟩
    have hw : factor = w := by simpa [htags] using hw
    rw [hextent, hw]
  | vectorize honly =>
    refine ⟨fun _ => honly, by simp [htags], fun w hw env => ?_, by simp [htags]⟩
    have hw : factor = w := by simpa [htags] using hw
    rw [hextent, hw]

end Given

section Steps

variable {p : Program} {roots roots' : List Node} (hr : RegularAll false roots)
include hr

theorem regular_divides {factor : Nat} {tags : Tags} {hd : Header} {body : List Node} {path : Path}
    {hs : List Header} (h : Divides roots roots' factor tags hd body path hs) (hg : Given factor body tags) :
    RegularAll false roots' := by
  rcases h.effect with ⟨rfl, hextent⟩ | ⟨s, hsplits⟩
  · -- the loop is kept whole and gets the tags
    refine (h.occurs.replaces fun _ => .loop { hd with tags } body).regular rfl hr ?_
    rintro ⟨hne, -, -, hbody⟩
    rw [h.untagged, Bool.or_false] at hbody
    refine ⟨hne, Given.fits hg hextent, fun _ => hg.sequential, ?_⟩
    rw [hg.sequential, Bool.or_false]
    exact hbody
  · obtain ⟨outer, inner, value, clamp, body', htiled, hreplaces⟩ := hsplits.exists_tiled h.occurs
    refine hreplaces.regular rfl hr ?_
    rintro ⟨hne, -, -, hbody⟩
    rw [h.untagged, Bool.or_false] at hbody
    -- the outer loop has no tags, and the inner one, as long as a tile, gets those that were given
    have houter : (outerHeader hd s factor outer).tags = {} := h.untagged
    have hinner : (innerHeader factor inner clamp tags).Fits body' := by
      refine Given.fits (hg.of_body (onlyLeaves_substituteAll htiled.body_eq)) fun env => ?_
      rw [innerHeader, value_zero, Affine.value_ofInt, Int.sub_zero]
    have hne' : body' ≠ [] := by
      apply List.ne_nil_of_length_pos
      rw [(traverses_substituteAll _).length_eq htiled.body_eq]
      exact List.length_pos_of_ne_nil hne
    refine ⟨List.cons_ne_nil _ _, Header.fits_of_untagged houter, fun _ => by rw [houter], ?_⟩
    rw [houter, Bool.or_false]
    refine ⟨⟨hne', hinner, fun _ => hg.sequential, ?_⟩, trivial⟩
    have hsequential : (innerHeader factor inner clamp tags).tags.parallel = false := hg.sequential
    rw [hsequential, Bool.or_false]
    exact regularAll_substituteAll body htiled.body_eq hbody

theorem regular_parallelizes {hd : Header} {body : List Node} {path : Path} {hs : List Header}
    (h : Parallelizes roots roots' hd body path hs) : RegularAll false roots' := by
  rw [h.result]
  refine (h.occurs.replaces_header { hd with tags := { hd.tags with parallel := true } }).regular rfl hr ?_
  -- nothing around the loop is parallel, and it has no tag that goes with nothing else
  rw [parallelAbove_of_sequential h.above]
  rintro ⟨hne, hfits, -, hbody⟩
  have hbelow : ∀ l ∈ loopsAll 0 body, l.2.1.tags.parallel = false := by
    simpa [containsParallel] using h.below
  have hnone : (hd.tags.vectorize).isSome = true → False := by simp [h.vectorize]
  refine ⟨hne, ⟨fun hv => (hnone hv).elim, fun hv => (hnone hv).elim, hfits.width, hfits.factor⟩, nofun, ?_⟩
  exact regularAll_below_parallel body hbelow hbody

theorem regular_swaps {outer inner : Header} {mids : List Header} {body : List Node} {path rest : Path}
    {hs : List Header} (h : Swaps roots roots' outer inner mids body path rest hs) : RegularAll false roots' := by
  rw [h.result]
  refine (replaces_swap h.occurs h.inside).regular rfl hr ?_
  have houter := h.outer_untagged
  have hinner := h.inner_untagged
  have hmids := replaces_nest mids (.loop inner body) (.loop outer body)
  rintro ⟨-, -, -, hnest⟩
  rw [houter] at hnest
  refine ⟨hmids.ne_nil, Header.fits_of_untagged hinner, fun _ => by rw [hinner], ?_⟩
  rw [hinner]
  refine hmids.regular rfl hnest ?_
  rintro ⟨hne, -, -, hbody⟩
  rw [hinner] at hbody
  exact ⟨hne, Header.fits_of_untagged houter, fun _ => by rw [houter], by rw [houter]; exact hbody⟩

theorem regular_moves {rest : List Node} {rho : String → String} {outer kept moved : List Header} {n n' : Node}
    (h : Moves roots rest roots' rho outer kept moved n n') : RegularAll false roots' := by
  obtain ⟨path, ho, hrest⟩ := h.from_place
  obtain ⟨hkept, hmoved⟩ := h.matched.untagged
  have habove {hs : List Header} (htags : ∀ x ∈ hs, x.tags = {}) :
      parallelAbove false (outer ++ hs) = parallelAbove false outer := by
    rw [parallelAbove_append]
    exact parallelAbove_of_sequential (fun x hx => by rw [htags x hx]) _
  have hn := ho.regular hr
  rw [habove hmoved] at hn
  -- the loops gone into have no tags, so the branch has as many parallel loops above it as before
  refine h.inserts.regular (hrest ▸ ho.regular_detach hr) (fun x hx => ?_) ?_
  · rw [List.getLast?_append_of_ne_nil _ h.kept_ne_nil] at hx
    rw [hkept x (List.mem_of_getLast? hx)]
  · rw [habove hkept]
    exact regular_substitute n h.substitute hn

theorem regular_applyTo (hsound : Sound p roots) {t : Transformation} (h : t.applyTo p roots = .ok roots') :
    RegularAll false roots' := by
  cases change_of_applyTo hsound h with
  | divides h given => exact regular_divides hr h given
  | parallelizes h => exact regular_parallelizes hr h
  | swaps h => exact regular_swaps hr h
  | moves h => exact regular_moves hr h

end Steps

section Runs

variable {p : Program} {roots : List Node}

theorem Reshaped.regular (hp : p.WellFormed) (h : Reshaped p roots) : RegularAll false roots := by
  induction h with
  | initial h =>
    obtain ⟨s, rfl, hg⟩ := grown_of_nesting hp h
    exact hg.untagged.regular s.roots false
  | step t hr h ih => exact regular_applyTo ih (hr.sound hp) h

theorem Reshaped.leaves_perm (hp : p.WellFormed) (h : Reshaped p roots) :
    ((leavesAll roots).map Leaf.computation).Perm (List.range p.computations.length) := by
  induction h with
  | initial h =>
    obtain ⟨s, rfl, hg⟩ := grown_of_nesting hp h
    exact hg.leaves
  | step t hr h ih => exact (conserves_applyTo (hr.sound hp) h).leaves.trans ih

end Runs

/-- The form that trees have; `tidy` says that limits and bindings are canonical and mention only loops around
them. -/
structure Representation (p : Program) (roots : List Node) : Prop where
  distinct : (loopDims roots).Nodup
  tidy : TidyAll p [] roots
  inhabited : ∀ l ∈ loopsAll 0 roots, l.2.2 ≠ []
  complete : ∀ c < p.computations.length, ((leavesAll roots).map Leaf.computation).count c = 1
  fits : ∀ l ∈ loopsAll 0 roots, l.2.1.Fits l.2.2
  parallel : ∀ s ∈ leafStacksAll roots, s.1.countP (fun h => h.tags.parallel) ≤ 1

theorem Representation.sound {p : Program} {roots : List Node} (h : Representation p roots) : Sound p roots where
  tidy := h.tidy
  dims := loopDims_eq_dimsAll roots ▸ h.distinct
  leaves := by
    refine List.nodup_iff_count.2 fun c => ?_
    by_cases hmem : c ∈ (leavesAll roots).map Leaf.computation
    · obtain ⟨l, hl, rfl⟩ := List.mem_map.1 hmem
      obtain ⟨_, htidy⟩ := leafAll_tidy roots h.tidy hl
      obtain ⟨c, hc, -⟩ := htidy.computation
      exact Nat.le_of_eq (h.complete _ (List.getElem?_eq_some_iff.1 hc).1)
    · exact Nat.le_trans (Nat.le_of_eq (List.count_eq_zero.2 hmem)) (Nat.zero_le 1)

theorem Representation.regular {p : Program} {roots : List Node} (h : Representation p roots) :
    RegularAll false roots := by
  refine regularAll_of_loops roots (fun l hl => ⟨h.inhabited l hl, h.fits l hl⟩) fun s hs => ?_
  rw [Bool.toNat_false, Nat.zero_add]
  exact h.parallel s hs

/-- Whatever transformations were applied to the initial tree, in whatever order, the result has this form. -/
theorem representation_of_reshaped {description : Description} {p : Program} (hp : description.build = .ok p)
    {roots : List Node} (h : Reshaped p roots) : Representation p roots := by
  have hwf := Description.wellFormed_of_build hp
  have hsound := h.sound hwf
  have hregular := h.regular hwf
  constructor
  · rw [loopDims_eq_dimsAll]
    exact hsound.dims
  · exact hsound.tidy
  · intro l hl
    exact (hregular.loops roots l hl).1
  · intro c hc
    rw [(h.leaves_perm hwf).count_eq]
    exact List.count_eq_one_of_mem List.nodup_range (List.mem_range.2 hc)
  · intro l hl
    exact (hregular.loops roots l hl).2
  · intro s hs
    have hle := hregular.parallel_le roots s hs
    rwa [Bool.toNat_false, Nat.zero_add] at hle

theorem representation_of_reshaped_producerConsumer :
    Representation ProducerConsumer.program (ProducerConsumer.fused { parallel := true }) := by
  have hfused : (Transformation.fuse "produce" "consume" "i").applyTo ProducerConsumer.program
      ProducerConsumer.separate = .ok (ProducerConsumer.fused {}) := rfl
  have hparallel : (Transformation.parallelize "i").applyTo ProducerConsumer.program
      (ProducerConsumer.fused {}) = .ok (ProducerConsumer.fused { parallel := true }) := rfl
  have hinitial := Reshaped.initial ProducerConsumer.nesting_eq
  exact representation_of_reshaped ProducerConsumer.build_eq (.step _ (.step _ hinitial hfused) hparallel)

end LoopNest

import LoopNest.Proofs.Transform.Effect

namespace LoopNest

open Node

def NamedAfter (names names' : List String) : Prop := ∀ a ∈ names', ∃ b ∈ names, Name.Extends b a

namespace NamedAfter

variable {names names' names'' : List String}

theorem of_subset (h : names' ⊆ names) : NamedAfter names names' := fun a ha => ⟨a, h ha, .refl a⟩

theorem trans (h : NamedAfter names names') (h' : NamedAfter names' names'') : NamedAfter names names'' := by
  intro a ha
  obtain ⟨b, hb, hba⟩ := h' a ha
  obtain ⟨c, hc, hcb⟩ := h b hb
  exact ⟨c, hc, hcb.trans hba⟩

theorem append {more more' : List String} (h : NamedAfter names names') (h' : NamedAfter more more') :
    NamedAfter (names ++ more) (names' ++ more') := by
  intro a ha
  rcases List.mem_append.1 ha with ha | ha
  · obtain ⟨b, hb, hba⟩ := h a ha
    exact ⟨b, List.mem_append_left _ hb, hba⟩
  · obtain ⟨b, hb, hba⟩ := h' a ha
    exact ⟨b, List.mem_append_right _ hb, hba⟩

theorem of_replaces {n n' : Node} {ns ns' : List Node} {hs : List Header} (hr : Replaces n n' ns ns' hs)
    (h : NamedAfter n.dims n'.dims) : NamedAfter (dimsAll ns) (dimsAll ns') := by
  obtain ⟨pre, post, hns, hns'⟩ := hr.dims_eq
  rw [hns, hns']
  exact ((of_subset (List.Subset.refl pre)).append h).append (of_subset (List.Subset.refl post))

end NamedAfter

section Transformations

variable {p : Program} {roots roots' : List Node}

theorem namedAfter_split {taken : List String} {hd : Header} {body : List Node} {s : FixedRange} {factor : Int}
    {tags : Tags} {n : Node} (h : split taken hd body s factor tags = .ok n) :
    NamedAfter (Node.loop hd body).dims n.dims := by
  obtain ⟨value, -, h⟩ := bind_eq_ok.1 h
  obtain ⟨body', clamp, hbody, -, rfl⟩ := bind₂_eq_ok.1 h
  have hsplit {suffix : String} (hsuffix : ∀ c ∈ suffix.toList, Name.isTail c) (taken : List String) :
      Name.Extends hd.dim (Name.fresh (hd.dim ++ suffix) taken) :=
    (Name.extends_append hsuffix).trans (Name.extends_fresh _ _)
  intro a ha
  rw [dims, dimsAll, dims, dimsAll, List.append_nil, dimsAll_substituteAll body hbody] at ha
  rcases List.mem_cons.1 ha with rfl | ha
  · exact ⟨hd.dim, List.mem_cons_self, hsplit (List.all_eq_true.1 (by decide)) _⟩
  rcases List.mem_cons.1 ha with rfl | ha
  · exact ⟨hd.dim, List.mem_cons_self, hsplit (List.all_eq_true.1 (by decide)) _⟩
  · exact ⟨a, List.mem_cons_of_mem _ ha, .refl a⟩

theorem namedAfter_divides {factor : Nat} {tags : Tags} {hd : Header} {body : List Node} {path : Path}
    {hs : List Header} (h : Divides roots roots' factor tags hd body path hs) :
    NamedAfter (dimsAll roots) (dimsAll roots') := by
  rcases h.effect with ⟨rfl, -⟩ | ⟨s, hsplits⟩
  · exact .of_replaces (h.occurs.replaces fun _ => .loop { hd with tags } body) (.of_subset (List.Subset.refl _))
  · have hsplit := hsplits.result
    simp only [splitAt, bind_eq_ok, lift_eq_ok] at hsplit
    obtain ⟨n, hn, hsplit⟩ := hsplit
    cases hsplit
    exact .of_replaces (h.occurs.replaces fun _ => n) (namedAfter_split hn)

theorem namedAfter_parallelizes {hd : Header} {body : List Node} {path : Path} {hs : List Header}
    (h : Parallelizes roots roots' hd body path hs) : NamedAfter (dimsAll roots) (dimsAll roots') := by
  rw [h.result]
  exact .of_replaces (h.occurs.replaces_header _) (.of_subset (List.Subset.refl _))

theorem namedAfter_swaps {outer inner : Header} {mids : List Header} {body : List Node} {path rest : Path}
    {hs : List Header} (h : Swaps roots roots' outer inner mids body path rest hs) :
    NamedAfter (dimsAll roots) (dimsAll roots') := by
  rw [h.result]
  refine .of_replaces (replaces_swap h.occurs h.inside) (.of_subset fun a ha => ?_)
  simp only [dims, dimsAll_nest, dimsAll, List.append_nil, List.mem_append, List.mem_cons] at ha ⊢
  tauto

theorem namedAfter_moves {rest : List Node} {rho : String → String} {outer kept moved : List Header} {n n' : Node}
    (h : Moves roots rest roots' rho outer kept moved n n') : NamedAfter (dimsAll roots) (dimsAll roots') := by
  obtain ⟨pruned, hbefore⟩ := h.removes.dims_perm
  have hafter := h.inserts.dims_perm
  rw [dims_substitute n h.substitute] at hafter
  refine .of_subset fun a ha => hbefore.symm.subset ?_
  exact List.mem_append_left _ (hafter.subset ha)

theorem namedAfter_applyTo (hsound : Sound p roots) {t : Transformation} (h : t.applyTo p roots = .ok roots') :
    NamedAfter (dimsAll roots) (dimsAll roots') := by
  cases change_of_applyTo hsound h with
  | divides h => exact namedAfter_divides h
  | parallelizes h => exact namedAfter_parallelizes h
  | swaps h => exact namedAfter_swaps h
  | moves h => exact namedAfter_moves h

end Transformations

namespace Initial

theorem extends_of_freshNames {taken : List String} {ds : List Dimension} :
    NamedAfter (ds.map Dimension.name) ((freshNames taken ds).map Prod.snd) := by
  induction ds generalizing taken with
  | nil => exact .of_subset (List.Subset.refl _)
  | cons d ds ih =>
    intro a ha
    rw [freshNames, List.map_cons, List.mem_cons] at ha
    rcases ha with rfl | ha
    · exact ⟨d.name, List.mem_cons_self, Name.extends_fresh _ _⟩
    · obtain ⟨b, hb, hba⟩ := ih a ha
      exact ⟨b, List.mem_cons_of_mem _ hb, hba⟩

theorem namedAfter_place {s s' : State} {index : Nat} {c : Computation} (h : place s index c = .ok s') :
    NamedAfter (c.iterators ++ s.taken) s'.taken := by
  rw [place] at h
  cases hsharedLoops : sharedLoops s.roots c with
  | mk path names =>
    simp only [hsharedLoops] at h
    obtain ⟨n, -, h⟩ := bind_eq_ok.1 h
    cases h
    refine .append (.trans (.of_subset ?_) extends_of_freshNames) (.of_subset (List.Subset.refl _))
    exact List.map_subset _ (List.drop_subset _ _)

theorem namedAfter_placeAll {s s' : State} {index : Nat} {cs : List Computation}
    (h : placeAll s index cs = .ok s') : NamedAfter (cs.flatMap Computation.iterators ++ s.taken) s'.taken := by
  induction cs generalizing s index with
  | nil =>
    cases h
    exact .of_subset (List.Subset.refl _)
  | cons c cs ih =>
    obtain ⟨next, hn, h⟩ := bind_eq_ok.1 h
    have hstep := (NamedAfter.of_subset (List.Subset.refl (cs.flatMap Computation.iterators))).append
      (namedAfter_place hn)
    refine (NamedAfter.of_subset fun a ha => ?_).trans (hstep.trans (ih h))
    simp only [List.flatMap_cons, List.mem_append] at ha ⊢
    tauto

end Initial

def Program.iteratorNames (p : Program) : List String := p.computations.flatMap Computation.iterators

theorem namedAfter_nesting {p : Program} (hp : p.WellFormed) {roots : List Node} (h : p.nesting = .ok roots) :
    NamedAfter p.iteratorNames (dimsAll roots) := by
  obtain ⟨s, hs, hroots⟩ := bind_eq_ok.1 h
  cases hroots
  have htaken := Initial.namedAfter_placeAll hs
  rw [List.append_nil] at htaken
  exact htaken.trans (.of_subset (Initial.grown_placeAll hp rfl (Initial.grown_empty p) hs).taken)

theorem Reshaped.namedAfter {p : Program} (hp : p.WellFormed) {roots : List Node} (h : Reshaped p roots) :
    NamedAfter p.iteratorNames (dimsAll roots) := by
  induction h with
  | initial h => exact namedAfter_nesting hp h
  | step t hr h ih => exact ih.trans (namedAfter_applyTo (hr.sound hp) h)

section Mentioned

variable {p : Program} {roots roots' : List Node}

theorem mem_dims_of_namedLoop {dim : String} {α : Type} {r : α} {f : Path × Header × List Node → Transformed α}
    (h : (namedLoop roots dim >>= f) = .ok r) : dim ∈ dimsAll roots := by
  obtain ⟨⟨path, hd, body⟩, hnamed, -⟩ := bind_eq_ok.1 h
  obtain ⟨rfl, hs, ho⟩ := namedLoop_eq_ok hnamed
  exact ho.dims_sublist.subset (List.mem_append_right _ List.mem_cons_self)

theorem exists_computation {name : String} {i : Nat} {e : TransformError}
    (h : Outcome.require (p.computationPosition? name) e = .ok i) : ∃ c ∈ p.computations, c.name = name := by
  obtain ⟨c, hc, hname⟩ := exists_of_position? (Outcome.require_eq_ok.1 h)
  exact ⟨c, List.mem_of_getElem? hc, by simpa using hname⟩

theorem names_of_applyTo {t : Transformation} (h : t.applyTo p roots = .ok roots') :
    ∀ a ∈ t.names, a ∈ dimsAll roots ∨ ∃ c ∈ p.computations, c.name = a := by
  cases t with
  | tile dim factor | unroll dim factor | vectorize dim factor | parallelize dim =>
    simpa [Transformation.names] using Or.inl (mem_dims_of_namedLoop h)
  | interchange first second =>
    have hfirst := mem_dims_of_namedLoop h
    obtain ⟨path, hd, body, hs, -, ho, h⟩ := namedLoop_bind_eq_ok h
    have hsecond := mem_dims_of_namedLoop h
    simp [Transformation.names, hfirst, hsecond]
  | fuse first second dim =>
    obtain ⟨a, ha, h⟩ := bind_eq_ok.1 h
    obtain ⟨b, hb, h⟩ := bind_eq_ok.1 h
    split at h
    · cases h
    · obtain ⟨aPath, -, h⟩ := bind_eq_ok.1 h
      obtain ⟨bPath, -, h⟩ := bind_eq_ok.1 h
      simp [Transformation.names, exists_computation ha, exists_computation hb, mem_dims_of_namedLoop h]

end Mentioned

end LoopNest

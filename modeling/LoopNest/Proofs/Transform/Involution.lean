import LoopNest.Proofs.Transform.Representation

namespace LoopNest

open Node

theorem Affine.mentions_of_notMem_atoms {f : Affine} {a : String} (h : a ∉ f.atoms) : f.mentions a = false := by
  have hnone : f.terms.find? (fun t => t.atom == a) = none := by
    refine List.find?_eq_none.2 fun t ht => ?_
    have hne : t.atom ≠ a := fun heq => h (heq ▸ List.mem_map_of_mem ht)
    simpa using hne
  simp only [mentions, coefficient, hnone]
  rfl

namespace Header.Free

theorem mentions {h : Header} {a : String} (hfree : h.Free a) : LoopNest.mentions h a = false :=
  List.any_eq_false.2 fun f hf => by simp [Affine.mentions_of_notMem_atoms (hfree f hf)]

theorem firstMentioned {h : Header} {ls : List (Header × List Node)} (hfree : ∀ l ∈ ls, h.Free l.1.dim) :
    LoopNest.firstMentioned h ls = none := by
  induction ls with
  | nil => rfl
  | cons l ls ih =>
    obtain ⟨hl, hls⟩ := List.forall_mem_cons.1 hfree
    rw [LoopNest.firstMentioned, hl.mentions]
    exact ih hls

theorem firstMentioning {dim : String} {ls : List (Header × List Node)} (hfree : ∀ l ∈ ls, l.1.Free dim) :
    LoopNest.firstMentioning dim ls = none := by
  induction ls with
  | nil => rfl
  | cons l ls ih =>
    obtain ⟨hl, hls⟩ := List.forall_mem_cons.1 hfree
    rw [LoopNest.firstMentioning, hl.mentions]
    exact ih hls

end Header.Free

namespace Node.Occurs

variable {n : Node} {ns : List Node} {path : Path} {hs : List Header}

theorem modified (h : Occurs n ns path hs) (f : Node → Node) : Occurs (f n) (modifyAt f path ns) path hs := by
  induction h with
  | here pre post =>
    rw [modifyAt, modify_length]
    exact .here pre post
  | under hd pre post hb ih =>
    rw [modifyAt_cons f _ hb.ne_nil, modify_length]
    exact .under hd pre post ih

theorem modifyAt_of_fixed (h : Occurs n ns path hs) {f : Node → Node} (hf : f n = n) : modifyAt f path ns = ns := by
  induction h with
  | here pre post => rw [modifyAt, modify_length, hf]
  | under hd pre post hb ih => rw [modifyAt_cons f _ hb.ne_nil, modify_length, onBody, ih]

theorem append {h : Header} {body : List Node} {rest : Path} {mids : List Header} (ho : Occurs (loop h body) ns path hs)
    (hx : Occurs n body rest mids) : Occurs n ns (path ++ rest) (hs ++ h :: mids) := by
  induction ho with
  | here pre post => exact .under h pre post hx
  | under hd pre post hb ih => exact .under hd pre post ih

theorem above_of_nest (h : Occurs n ns path hs) {ms : List Header} (hns : ns = nest ms [n]) (hlen : hs = ms) :
    ∀ l ∈ above ns path, l.2.length = 1 := by
  subst hlen
  induction h with
  | here pre post => simp [above]
  | @under hd pre post inside path hs hb ih =>
    obtain ⟨rfl, rfl, hloop⟩ := eq_nest_cons hns
    have hinside := (loop.inj hloop).2
    rw [above_cons _ hb.ne_nil, getElem?_length]
    refine List.forall_mem_cons.2 ⟨?_, ih hinside⟩
    rw [hinside]
    cases hs <;> rfl

end Node.Occurs

theorem Tradable.symm {names : List String} {outer inner : Header} {mids : List Header}
    (h : Tradable names outer inner mids) (houter : outer.dim ∉ names) : Tradable names inner outer mids where
  tidy := h.tidy_swap
  fresh m hm := by
    rcases List.mem_append.1 hm with hm | hm
    · exact h.fresh m (List.mem_append_left _ hm)
    · rwa [List.mem_singleton.1 hm]
  dims := by
    have hdims := h.dims
    simp only [List.cons_append, List.map_cons, List.map_append, List.map_nil, List.nodup_cons,
      List.nodup_append, List.mem_append, List.mem_singleton] at hdims ⊢
    grind
  inner_free m hm := by
    refine h.tidy.1.free (h.fresh m ?_)
    rcases List.mem_cons.1 hm with rfl | hm
    · exact List.mem_append_right _ List.mem_cons_self
    · exact List.mem_append_left _ hm
  outer_free m hm := (h.free_inner m (List.mem_cons_of_mem _ hm)).1

namespace Swaps

variable {roots roots' : List Node} {outer inner : Header} {mids : List Header} {body : List Node}
  {path rest : Path} {hs : List Header} (h : Swaps roots roots' outer inner mids body path rest hs)
include h

theorem result_eq : roots' = modifyAt (trade outer inner rest) path roots := by
  rw [h.result, setHeader_setHeader h.occurs.ne_nil h.inside.ne_nil]

theorem inside_swapped : Occurs (.loop outer body) (nest mids [.loop outer body]) rest mids := by
  have hmodified := h.inside.modified (withHeader outer)
  rwa [h.inside.modifyAt_nest rfl rfl] at hmodified

theorem occurs_swapped : Occurs (.loop inner (nest mids [.loop outer body])) roots' path hs := by
  rw [h.result_eq, ← trade_nest h.inside]
  exact h.occurs.modified _

theorem trade_trade : trade inner outer rest (trade outer inner rest (.loop outer (nest mids [.loop inner body]))) =
    .loop outer (nest mids [.loop inner body]) := by
  rw [trade_nest h.inside, trade_nest h.inside_swapped]

theorem symm (hdims : (dimsAll roots).Nodup) : Swaps roots' roots inner outer mids body path rest hs where
  occurs := h.occurs_swapped
  inside := h.inside_swapped
  outer_untagged := h.inner_untagged
  inner_untagged := h.outer_untagged
  tradable := by
    refine h.tradable.symm fun hmem => ?_
    have habove : outer.dim ∈ hs.map Header.dim := (mem_scope.1 hmem).resolve_left List.not_mem_nil
    have hapart := (List.nodup_append.1 (hdims.sublist h.occurs.dims_sublist)).2.2
    exact hapart _ habove _ (by simp [dims]) rfl
  result := by
    rw [setHeader_setHeader h.occurs.ne_nil h.inside.ne_nil, h.result_eq, modifyAt_modifyAt _ _ _ h.occurs.ne_nil]
    exact (h.occurs.modifyAt_of_fixed h.trade_trade).symm

theorem occurs_inner : Occurs (.loop inner body) roots (path ++ rest) (hs ++ outer :: mids) :=
  h.occurs.append h.inside

theorem chain_eq : chain roots path (path ++ rest) = (outer, nest mids [.loop inner body]) ::
    above (nest mids [.loop inner body]) rest ++ [(inner, body)] := by
  have hlength : path.length - 1 = (above roots path).length := by
    rw [← List.length_map Prod.fst, h.occurs.above_eq, h.occurs.length_path, Nat.add_sub_cancel]
  rw [chain, h.occurs.above_append h.inside.ne_nil, h.occurs_inner.loopAt?, hlength, List.drop_left]
  rfl

theorem interchangeAt_eq (t : Transformation) : interchangeAt roots t path (path ++ rest) = .ok roots' := by
  have hperfect : ((outer, nest mids [.loop inner body]) :: above (nest mids [.loop inner body]) rest).any
      (fun l => l.2.length != 1) = false := by
    have hmids := h.inside.above_of_nest rfl rfl
    have houter : (nest mids [.loop inner body]).length = 1 := by cases mids <;> rfl
    simpa [houter] using hmids
  have hheaders := h.inside.above_eq
  have hmentioned : firstMentioned inner
      ((outer, nest mids [.loop inner body]) :: above (nest mids [.loop inner body]) rest) = none := by
    refine Header.Free.firstMentioned fun l hl => h.tradable.inner_free l.1 ?_
    rw [← hheaders]
    exact List.mem_map_of_mem (f := Prod.fst) hl
  have hmentioning : firstMentioning outer.dim (above (nest mids [.loop inner body]) rest) = none := by
    refine Header.Free.firstMentioning fun l hl => h.tradable.outer_free l.1 ?_
    rw [← hheaders]
    exact List.mem_map_of_mem hl
  have htags : (outer.hasTags || inner.hasTags) = false := by
    simp [Header.hasTags, h.outer_untagged, h.inner_untagged]
  rw [interchangeAt, h.chain_eq]
  simp only [List.dropLast_concat, List.getLast?_concat, hperfect, htags, hmentioned, hmentioning, h.result]
  rfl

theorem interchange_eq (hdims : (dimsAll roots).Nodup) {first second : String}
    (hnames : (first = outer.dim ∧ second = inner.dim) ∨ (first = inner.dim ∧ second = outer.dim)) :
    interchange roots first second = .ok roots' := by
  have houter := namedLoop_of_occurs h.occurs hdims
  have hinner := namedLoop_of_occurs h.occurs_inner hdims
  have hlt : path.length < (path ++ rest).length := by
    have hrest := List.length_pos_of_ne_nil h.inside.ne_nil
    rw [List.length_append]
    omega
  have hbelow : (decide (path.length < (path ++ rest).length) && path.isPrefixOf (path ++ rest)) = true := by
    simp only [hlt, decide_true, Bool.true_and, List.isPrefixOf_iff_prefix]
    exact List.prefix_append path rest
  rcases hnames with ⟨rfl, rfl⟩ | ⟨rfl, rfl⟩
  · simp only [interchange, houter, hinner, ok_bind, hbelow, if_true]
    exact h.interchangeAt_eq _
  · have habove : (decide ((path ++ rest).length < path.length) && (path ++ rest).isPrefixOf path) = false := by
      rw [decide_eq_false (Nat.not_lt.2 (Nat.le_of_lt hlt)), Bool.false_and]
    simp only [interchange, houter, hinner, ok_bind, habove, hbelow, if_true]
    exact h.interchangeAt_eq _

end Swaps

theorem interchange_interchange {p : Program} {roots roots' : List Node} (hsound : Sound p roots)
    {first second : String} (h : interchange roots first second = .ok roots') :
    interchange roots' first second = .ok roots := by
  obtain ⟨outer, inner, mids, body, path, rest, hs, hswaps, hnames⟩ := swaps_of_interchange hsound h
  exact (hswaps.symm hsound.dims).interchange_eq (conserves_interchange hsound h).sound.dims hnames.symm

end LoopNest

import LoopNest.Proofs.Transform.Conserves
import LoopNest.Proofs.Tree.Nest
import LoopNest.Transform.Interchange

namespace LoopNest

open Node

theorem Header.free_of_mentions {h : Header} (hc : ∀ f ∈ h.limits, f.IsCanonical) {a : String}
    (ha : mentions h a = false) : h.Free a := fun f hf =>
  Affine.not_mem_atoms_of_mentions (hc f hf) (by simpa using List.any_eq_false.1 ha f hf)

theorem firstMentioned_eq_none {h : Header} {ls : List (Header × List Node)}
    (hnone : firstMentioned h ls = none) : ∀ l ∈ ls, mentions h l.1.dim = false := by
  induction ls with
  | nil => simp
  | cons l ls ih =>
    rw [firstMentioned] at hnone
    split at hnone
    · cases hnone
    · next hl => exact List.forall_mem_cons.2 ⟨by simpa using hl, ih hnone⟩

theorem firstMentioning_eq_none {dim : String} {ls : List (Header × List Node)}
    (hnone : firstMentioning dim ls = none) : ∀ l ∈ ls, mentions l.1 dim = false := by
  induction ls with
  | nil => simp
  | cons l ls ih =>
    rw [firstMentioning] at hnone
    split at hnone
    · cases hnone
    · next hl => exact List.forall_mem_cons.2 ⟨by simpa using hl, ih hnone⟩

structure Tradable (names : List String) (outer inner : Header) (mids : List Header) : Prop where
  tidy : HeadersTidy names (outer :: mids ++ [inner])
  fresh : ∀ m ∈ mids ++ [inner], m.dim ∉ names
  dims : ((outer :: mids ++ [inner]).map Header.dim).Nodup
  inner_free : ∀ m ∈ outer :: mids, inner.Free m.dim
  outer_free : ∀ m ∈ mids, m.Free outer.dim

namespace Tradable

variable {names : List String} {outer inner : Header} {mids : List Header}
  (h : Tradable names outer inner mids)
include h

theorem mids_tidy : HeadersTidy (outer.dim :: names) mids ∧ inner.Tidy (scope names (outer :: mids)) :=
  (headersTidy_snoc.1 h.tidy.2)

theorem inner_not_mem : inner.dim ∉ (outer :: mids).map Header.dim := by
  have hdims := h.dims
  rw [List.map_append, List.nodup_append] at hdims
  exact fun hmem => hdims.2.2 _ hmem _ (by simp) rfl

theorem outer_not_mem : outer.dim ∉ mids.map Header.dim := by
  have hdims := h.dims
  rw [List.cons_append, List.map_cons, List.nodup_cons, List.map_append] at hdims
  exact fun hmem => hdims.1 (List.mem_append_left _ hmem)

theorem free_inner : ∀ m ∈ outer :: mids, m.Free inner.dim ∧ m.dim ≠ inner.dim := by
  have hne := h.inner_not_mem
  have hheaders : HeadersTidy names (outer :: mids) := ⟨h.tidy.1, h.mids_tidy.1⟩
  exact fun m hm => ⟨hheaders.free (h.fresh inner (by simp)) hne m hm, fun heq => hne (heq ▸ List.mem_map_of_mem hm)⟩

theorem runs_perm (env : Valuation) :
    (runs env (inner :: mids ++ [outer])).Perm (runs env (outer :: mids ++ [inner])) := by
  have hinward (e : Valuation) : (runs e (mids ++ [outer])).Perm (runs e (outer :: mids)) := by
    refine runs_moveOut (fun m hm => ?_) (fun m hm => ⟨h.outer_free m hm, ?_⟩) e
    · exact h.tidy.1.free (h.fresh m (List.mem_append_left _ hm))
    · exact fun heq => h.outer_not_mem (heq ▸ List.mem_map_of_mem hm)
  have houtward := runs_moveOut h.inner_free h.free_inner env
  exact (List.Perm.flatMap_left _ fun v _ => hinward _).trans houtward.symm

theorem tidy_swap : HeadersTidy names (inner :: mids ++ [outer]) := by
  obtain ⟨hmids, hinner⟩ := h.mids_tidy
  refine headersTidy_snoc.2 ⟨⟨hinner.strip fun a ha => ?_, hmids.strip fun m hm a ha => ?_⟩, ?_⟩
  · refine (mem_scope.1 ha).imp_right fun hmem => ?_
    obtain ⟨m, hm, rfl⟩ := List.mem_map.1 hmem
    exact h.inner_free m hm
  · rcases List.mem_cons.1 ha with rfl | ha
    · exact Or.inr (h.outer_free m hm)
    · exact Or.inl (List.mem_cons_of_mem _ ha)
  · exact h.tidy.1.mono fun a ha => mem_scope.2 (Or.inl ha)

theorem node_points {body : List Node} (env : Valuation) :
    ((Node.loop inner (nest mids [.loop outer body])).points env).Perm
      ((Node.loop outer (nest mids [.loop inner body])).points env) := by
  have hnest (a b : Header) (e : Valuation) : (Node.loop a (nest mids [.loop b body])).points e =
      (runs e (a :: mids ++ [b])).flatMap fun e => pointsAll e body := by
    rw [← pointsAll_nest, ← nest_snoc, List.cons_append, nest, pointsAll, pointsAll, List.append_nil]
  rw [hnest, hnest]
  exact (h.runs_perm env).flatMap_right _

theorem node_tidy {p : Program} {body : List Node}
    (ht : (Node.loop outer (nest mids [.loop inner body])).Tidy p names) :
    (Node.loop inner (nest mids [.loop outer body])).Tidy p names := by
  have hnest (a b : Header) : (Node.loop a (nest mids [.loop b body])).Tidy p names ↔
      HeadersTidy names (a :: mids ++ [b]) ∧ TidyAll p (scope names (a :: mids ++ [b])) body := by
    rw [← tidyAll_nest, ← nest_snoc, List.cons_append, nest, TidyAll]
    exact (and_iff_left trivial).symm
  refine (hnest _ _).2 ⟨h.tidy_swap, ((hnest _ _).1 ht).2.mono _ fun a ha => ?_⟩
  simp only [mem_scope, List.map_append, List.map_cons, List.mem_append, List.mem_cons] at ha ⊢
  tauto

end Tradable

def trade (outer inner : Header) (rest : Path) : Node → Node :=
  onBody (modifyAt (withHeader outer) rest) ∘ withHeader inner

theorem trade_nest {outer inner : Header} {innerBody : List Node} {mids : List Header} {rest : Path}
    (hi : Occurs (.loop inner innerBody) (nest mids [.loop inner innerBody]) rest mids) :
    trade outer inner rest (.loop outer (nest mids [.loop inner innerBody])) =
      .loop inner (nest mids [.loop outer innerBody]) := by
  simp only [trade, Function.comp_apply, withHeader, onBody, hi.modifyAt_nest rfl rfl]

theorem setHeader_setHeader {outer inner : Header} {roots : List Node} {path rest : Path} (hne : path ≠ [])
    (hrest : rest ≠ []) : setHeader outer (path ++ rest) (setHeader inner path roots) =
      modifyAt (trade outer inner rest) path roots := by
  rw [setHeader_eq, setHeader_eq, modifyAt_append _ hne hrest, modifyAt_modifyAt _ _ _ hne, trade]

theorem replaces_swap {outer inner : Header} {innerBody roots : List Node} {mids hs : List Header}
    {path rest : Path} (ho : Occurs (.loop outer (nest mids [.loop inner innerBody])) roots path hs)
    (hi : Occurs (.loop inner innerBody) (nest mids [.loop inner innerBody]) rest mids) :
    Replaces (.loop outer (nest mids [.loop inner innerBody])) (.loop inner (nest mids [.loop outer innerBody]))
      roots (setHeader outer (path ++ rest) (setHeader inner path roots)) hs := by
  rw [setHeader_setHeader ho.ne_nil hi.ne_nil, ← trade_nest hi]
  exact ho.replaces (trade outer inner rest)

theorem tradable_of_occurs {p : Program} {roots : List Node} (hsound : Sound p roots) {outer inner : Header}
    {outerBody innerBody : List Node} {path : Path} {mids hs : List Header}
    (ho : Occurs (.loop outer outerBody) roots path hs)
    (hnest : outerBody = nest mids [.loop inner innerBody])
    (hmentioned : ∀ m ∈ outer :: mids, mentions inner m.dim = false)
    (hmentioning : ∀ m ∈ mids, mentions m outer.dim = false) :
    Tradable (scope [] hs) outer inner mids := by
  have hnode : nest (outer :: mids ++ [inner]) innerBody = [.loop outer outerBody] := by
    rw [nest_snoc, nest, hnest]
  have htidy : TidyAll p (scope [] hs) (nest (outer :: mids ++ [inner]) innerBody) :=
    hnode ▸ ⟨ho.tidy hsound.tidy, trivial⟩
  obtain ⟨htidy, -⟩ := tidyAll_nest.1 htidy
  have hdims := hsound.dims.sublist ho.dims_sublist
  have hnames : (Node.loop outer outerBody).dims =
      (outer :: mids ++ [inner]).map Header.dim ++ dimsAll innerBody := by
    rw [← dimsAll_nest, hnode, dimsAll, dimsAll, List.append_nil]
  rw [hnames, List.nodup_append] at hdims
  refine ⟨htidy, fun m hm hmem => ?_, (List.nodup_append.1 hdims.2.1).1, fun m hm => ?_, fun m hm => ?_⟩
  · have habove : m.dim ∈ hs.map Header.dim := (mem_scope.1 hmem).resolve_left List.not_mem_nil
    refine hdims.2.2 _ habove _ (List.mem_append_left _ ?_) rfl
    exact List.mem_map_of_mem (List.mem_cons_of_mem _ hm)
  · exact Header.free_of_mentions (htidy.canonical inner (by simp)) (hmentioned m hm)
  · exact Header.free_of_mentions (htidy.canonical m (by simp [hm])) (hmentioning m hm)

structure Swaps (roots roots' : List Node) (outer inner : Header) (mids : List Header) (body : List Node)
    (path rest : Path) (hs : List Header) : Prop where
  occurs : Occurs (.loop outer (nest mids [.loop inner body])) roots path hs
  inside : Occurs (.loop inner body) (nest mids [.loop inner body]) rest mids
  outer_untagged : outer.tags = {}
  inner_untagged : inner.tags = {}
  tradable : Tradable (scope [] hs) outer inner mids
  result : roots' = setHeader outer (path ++ rest) (setHeader inner path roots)

section Effect

variable {p : Program} {roots roots' : List Node} (hsound : Sound p roots)
include hsound

theorem swaps_of_interchangeAt {t : Transformation} {outer inner : Header} {outerBody innerBody : List Node}
    {path rest : Path} {hs hs' : List Header} (ho : Occurs (.loop outer outerBody) roots path hs)
    (hi : Occurs (.loop inner innerBody) roots (path ++ rest) hs') (hrest : rest ≠ [])
    (h : interchangeAt roots t path (path ++ rest) = .ok roots') :
    ∃ mids, Swaps roots roots' outer inner mids innerBody path rest hs := by
  obtain ⟨mids, hmids, rfl⟩ := ho.of_append hi hrest
  -- the loops from the outer to the inner one, both included
  have hchain : chain roots path (path ++ rest) =
      (outer, outerBody) :: above outerBody rest ++ [(inner, innerBody)] := by
    have hlength : path.length - 1 = (above roots path).length := by
      rw [← List.length_map Prod.fst, ho.above_eq, ho.length_path, Nat.add_sub_cancel]
    rw [chain, ho.above_append hrest, hi.loopAt?, hlength, List.drop_left]
    rfl
  simp only [interchangeAt, hchain, List.dropLast_concat, List.getLast?_concat] at h
  split at h
  · cases h
  · next hperfect =>
    split at h
    · cases h
    · next huntagged =>
      split at h
      · cases h
      · next hmentioned =>
        split at h
        · cases h
        · next hmentioning =>
          cases h
          have hsingle : outerBody.length = 1 ∧ ∀ l ∈ above outerBody rest, l.2.length = 1 := by
            simpa using hperfect
          obtain rfl := hmids.eq_nest hsingle.1 hsingle.2
          have hheaders := hmids.above_eq
          have htrade : Tradable (scope [] hs) outer inner mids := by
            refine tradable_of_occurs hsound ho rfl ?_ ?_
            · rw [← hheaders]
              simpa using firstMentioned_eq_none hmentioned
            · rw [← hheaders]
              simpa using firstMentioning_eq_none hmentioning
          have htags : outer.tags = {} ∧ inner.tags = {} := by simpa [Header.hasTags] using huntagged
          exact ⟨mids, ho, hmids, htags.1, htags.2, htrade, rfl⟩

theorem swaps_of_interchange {first second : String} (h : interchange roots first second = .ok roots') :
    ∃ outer inner mids body path rest hs, Swaps roots roots' outer inner mids body path rest hs ∧
      ((first = outer.dim ∧ second = inner.dim) ∨ (first = inner.dim ∧ second = outer.dim)) := by
  obtain ⟨⟨path, hd, body⟩, hfirst, h⟩ := bind_eq_ok.1 h
  obtain ⟨⟨path', hd', body'⟩, hsecond, h⟩ := bind_eq_ok.1 h
  obtain ⟨rfl, hs, ho⟩ := namedLoop_eq_ok hfirst
  obtain ⟨rfl, hs', ho'⟩ := namedLoop_eq_ok hsecond
  simp only [Bool.and_eq_true, decide_eq_true_eq, List.isPrefixOf_iff_prefix] at h
  split at h
  · next hbelow =>
    obtain ⟨hlt, rest, rfl⟩ := hbelow
    obtain ⟨mids, hswaps⟩ := swaps_of_interchangeAt hsound ho ho' (by rintro rfl; simp at hlt) h
    exact ⟨hd, hd', mids, body', path, rest, hs, hswaps, Or.inl ⟨rfl, rfl⟩⟩
  · split at h
    · next hbelow =>
      obtain ⟨hlt, rest, rfl⟩ := hbelow
      obtain ⟨mids, hswaps⟩ := swaps_of_interchangeAt hsound ho' ho (by rintro rfl; simp at hlt) h
      exact ⟨hd', hd, mids, body, path', rest, hs', hswaps, Or.inr ⟨rfl, rfl⟩⟩
    · cases h

theorem conserves_interchange {first second : String} (h : interchange roots first second = .ok roots') :
    Conserves p roots roots' := by
  obtain ⟨outer, inner, mids, body, path, rest, hs, hswaps, -⟩ := swaps_of_interchange hsound h
  have hr := replaces_swap hswaps.occurs hswaps.inside
  have hnothing : ([] ++ dimsAll roots).Nodup := hsound.dims
  rw [hswaps.result]
  refine conserves_of_replaces hsound hr hswaps.tradable.node_points hswaps.tradable.node_tidy ?_ hnothing ?_
  · simp only [leaves, leavesAll_nest, leavesAll, List.append_nil]
  · apply List.Perm.subperm
    rw [List.perm_iff_count]
    intro a
    simp only [dims, dimsAll, dimsAll_nest, List.nil_append, List.append_nil, List.count_append, List.count_cons]
    omega

end Effect

end LoopNest

import LoopNest.Proofs.Description.WellFormed
import LoopNest.Proofs.Text.Name
import LoopNest.Proofs.Tree.Order
import LoopNest.Proofs.Tree.Regular
import LoopNest.Tree.Initial

namespace LoopNest.Initial

namespace Renaming

theorem apply_cons_self (k v : String) (r : Renaming) : Renaming.apply ((k, v) :: r) k = v := by
  simp [apply]

theorem apply_cons_of_ne {k a : String} (v : String) (r : Renaming) (h : a ≠ k) :
    Renaming.apply ((k, v) :: r) a = r.apply a := by
  rw [apply, List.find?_cons_of_neg (by simpa using h.symm), apply]

theorem apply_of_not_mem {r : Renaming} {a : String} (h : a ∉ r.map Prod.fst) : r.apply a = a := by
  induction r with
  | nil => rfl
  | cons pair r ih =>
    simp only [List.map_cons, List.mem_cons, not_or] at h
    rw [apply_cons_of_ne _ _ h.1, ih h.2]

theorem apply_of_mem {r : Renaming} (hnodup : (r.map Prod.fst).Nodup) {pair : String × String}
    (h : pair ∈ r) : r.apply pair.1 = pair.2 := by
  induction r with
  | nil => cases h
  | cons head r ih =>
    obtain ⟨hhead, hr⟩ := List.nodup_cons.1 hnodup
    rcases List.mem_cons.1 h with rfl | h
    · exact apply_cons_self _ _ _
    · rw [apply_cons_of_ne _ _ (by rintro heq; exact hhead (heq ▸ List.mem_map_of_mem h)), ih hr h]

theorem map_apply {r : Renaming} (hnodup : (r.map Prod.fst).Nodup) :
    (r.map Prod.fst).map r.apply = r.map Prod.snd := by
  rw [List.map_map]
  exact List.map_congr_left fun pair h => apply_of_mem hnodup h

end Renaming

theorem freshNames_map_fst (taken : List String) (ds : List Dimension) :
    (freshNames taken ds).map Prod.fst = ds.map Dimension.name := by
  induction ds generalizing taken with
  | nil => rfl
  | cons d ds ih => simp only [freshNames, List.map_cons, ih]

theorem freshNames_not_mem {taken : List String} {ds : List Dimension} :
    ∀ a ∈ (freshNames taken ds).map Prod.snd, a ∉ taken := by
  induction ds generalizing taken with
  | nil => simp [freshNames]
  | cons d ds ih =>
    rw [freshNames, List.map_cons, List.forall_mem_cons]
    exact ⟨Name.fresh_not_mem _ _, fun a ha hmem => ih a ha (List.mem_cons_of_mem _ hmem)⟩

theorem freshNames_nodup (taken : List String) (ds : List Dimension) :
    ((freshNames taken ds).map Prod.snd).Nodup := by
  induction ds generalizing taken with
  | nil => simp [freshNames]
  | cons d ds ih =>
    rw [freshNames, List.map_cons, List.nodup_cons]
    exact ⟨fun hmem => freshNames_not_mem _ hmem List.mem_cons_self, ih _⟩

open Node

structure LoopOf (r : Renaming) (h : Header) (d : Dimension) : Prop where
  dim : h.dim = r.apply d.name
  lower : d.lower.bindVars (fun a => .var (r.apply a)) = .ok h.lower
  upper : d.upper.bindVars (fun a => .var (r.apply a)) = .ok h.upper
  clamp : h.clamp = none
  untagged : h.tags = {}

theorem wrap_eq_ok {r : Renaming} {inner n : Node} {ds : List Dimension} (h : wrap r inner ds = .ok n) :
    ∃ hs, List.Forall₂ (LoopOf r) hs ds ∧ nest hs [inner] = [n] := by
  induction ds generalizing n with
  | nil =>
    cases h
    exact ⟨[], .nil, rfl⟩
  | cons d ds ih =>
    obtain ⟨body, hbody, h⟩ := bind_eq_ok.1 h
    obtain ⟨lower, upper, hlower, hupper, rfl⟩ := bind₂_eq_ok.1 h
    obtain ⟨hs, hforall, hnest⟩ := ih hbody
    exact ⟨_, .cons ⟨rfl, hlower, hupper, rfl, rfl⟩ hforall, by rw [nest, hnest]⟩

theorem untagged_of_loops {r : Renaming} {hs : List Header} {ds : List Dimension}
    (h : List.Forall₂ (LoopOf r) hs ds) : ∀ x ∈ hs, x.tags = {} :=
  fun _ hx =>
    have ⟨_, _, hloop⟩ := exists_of_forall₂ h hx
    hloop.untagged

theorem dims_of_loops {r : Renaming} {hs : List Header} {ds : List Dimension}
    (h : List.Forall₂ (LoopOf r) hs ds) : hs.map Header.dim = (ds.map Dimension.name).map r.apply := by
  induction h with
  | nil => rfl
  | cons hd _ ih => rw [List.map_cons, List.map_cons, List.map_cons, hd.dim, ih]

theorem headersTidy_of_loops {r : Renaming} {hs : List Header} {ds : List Dimension}
    (h : List.Forall₂ (LoopOf r) hs ds) {around names : List String} (hn : Dimension.Nested around ds)
    (hnames : ∀ a ∈ around, r.apply a ∈ names) : HeadersTidy names hs := by
  induction h generalizing around names with
  | nil => trivial
  | @cons hd d hs ds hloop _ ih =>
    obtain ⟨hlower, hupper, hrest⟩ := hn
    have hform {f g : Affine} (hf : f.Over around) (hg : f.bindVars (fun a => .var (r.apply a)) = .ok g) :
        g.Over names ∧ g.IsCanonical :=
      ⟨Affine.over_bindVars (fun a ha => Affine.over_var (hnames a (hf a ha))) hg, Affine.isCanonical_bindVars hg⟩
    refine ⟨Header.tidy_of_limits (hform hlower hloop.lower) (hform hupper hloop.upper) ?_, ih hrest ?_⟩
    · intro c hc
      cases hloop.clamp.symm.trans hc
    · intro a ha
      rw [hloop.dim]
      rcases List.mem_cons.1 ha with rfl | ha
      · exact List.mem_cons_self
      · exact List.mem_cons_of_mem _ (hnames a ha)

theorem nested_drop {around : List String} {ds : List Dimension} (h : Dimension.Nested around ds) (k : Nat) :
    ∃ more, Dimension.Nested more (ds.drop k) ∧
      ∀ a ∈ more, a ∈ around ∨ a ∈ (ds.take k).map Dimension.name := by
  induction ds generalizing around k with
  | nil => exact ⟨around, by simp [Dimension.Nested], fun a ha => Or.inl ha⟩
  | cons d ds ih =>
    cases k with
    | zero => exact ⟨around, h, fun a ha => Or.inl ha⟩
    | succ k =>
      obtain ⟨more, hmore, hmem⟩ := ih h.2.2 k
      refine ⟨more, hmore, fun a ha => ?_⟩
      rw [List.take_succ_cons, List.map_cons, List.mem_cons]
      rcases hmem a ha with h | h
      · exact (List.mem_cons.1 h).elim (fun h => Or.inr (Or.inl h)) Or.inl
      · exact Or.inr (Or.inr h)

inductive Shares (roots : List Node) (c : Computation) : Path → List Header → Prop
  | alone (h : ∀ other level, c.after = some (other, level) → leafPath? roots other = none) : Shares roots c [] []
  | behind {other level k : Nat} {l : Leaf} {path : Path} {hs : List Header} (hafter : c.after = some (other, level))
      (hl : l.computation = other) (ho : Occurs (leaf l) roots path hs)
      (hk : k = min (min (level + 1) c.depth) hs.length) : Shares roots c (path.take k) (hs.take k)

namespace Shares

variable {roots : List Node} {c : Computation} {path : Path} {hs : List Header}

theorem length_le (h : Shares roots c path hs) : hs.length ≤ c.depth := by
  cases h with
  | alone => exact Nat.zero_le _
  | behind hafter hl ho hk =>
    rw [List.length_take]
    omega

theorem dims_sublist (h : Shares roots c path hs) : (hs.map Header.dim).Sublist (dimsAll roots) := by
  cases h with
  | alone => exact List.nil_sublist _
  | behind hafter hl ho hk =>
    exact ((List.take_sublist _ _).map Header.dim).trans ((List.sublist_append_left _ _).trans ho.dims_sublist)

theorem inserts (h : Shares roots c path hs) (n : Node) :
    Inserts n roots (modifyChildren (· ++ [n]) path roots) hs := by
  cases h with
  | alone => exact .last _
  | behind hafter hl ho hk => exact ho.insertsChild (by omega) n

end Shares

theorem shares_of_sharedLoops {roots : List Node} {c : Computation} {path : Path} {names : List String}
    (h : sharedLoops roots c = (path, names)) : ∃ hs, names = hs.map Header.dim ∧ Shares roots c path hs := by
  rw [sharedLoops] at h
  split at h
  · next hnone =>
    cases h
    exact ⟨[], rfl, .alone fun other level hafter => by rw [hnone] at hafter; cases hafter⟩
  · next other level hafter =>
    split at h
    · next hleaf =>
      cases h
      refine ⟨[], rfl, .alone fun other' level' hafter' => ?_⟩
      cases hafter.symm.trans hafter'
      exact hleaf
    · next path' hleaf =>
      obtain ⟨l, hs, hl, ho⟩ := occurs_of_leafPath? hleaf
      have hdims : (above roots path').map (fun l => l.1.dim) = hs.map Header.dim := by
        rw [← ho.above_eq, List.map_map]
        rfl
      simp only [hdims] at h
      cases h
      refine ⟨hs.take (min (min (level + 1) c.depth) hs.length), ?_, ?_⟩
      · rw [← List.map_take, List.take_eq_take_min]
      · rw [List.length_take, List.length_map]
        exact .behind hafter hl ho rfl

structure Placed (index : Nat) (s s' : State) (shared fresh : List Header) (n : Node) : Prop where
  node : nest fresh [.leaf ⟨index, (shared ++ fresh).map fun h => .var h.dim⟩] = [n]
  inserts : Inserts n s.roots s'.roots shared
  tidy : HeadersTidy (scope [] shared) fresh
  nodup : (fresh.map Header.dim).Nodup
  not_taken : ∀ a ∈ fresh.map Header.dim, a ∉ s.taken
  taken : s'.taken = fresh.map Header.dim ++ s.taken
  untagged : ∀ x ∈ fresh, x.tags = {}

theorem map_renaming (taken : List String) {c : Computation} (hc : c.iterators.Nodup) {names : List String}
    (hlength : names.length ≤ c.depth) {fresh r : Renaming}
    (hfresh : fresh = freshNames taken (c.domain.drop names.length))
    (hr : r = c.iterators.zip names ++ fresh) :
    (c.iterators.take names.length).map r.apply = names ∧
      ((c.domain.drop names.length).map Dimension.name).map r.apply = fresh.map Prod.snd ∧
      c.iterators.map r.apply = names ++ fresh.map Prod.snd := by
  have hiterators : c.iterators.take names.length ++ (c.domain.drop names.length).map Dimension.name =
      c.iterators := by
    rw [Computation.iterators, ← List.map_take, ← List.map_append, List.take_append_drop]
  have htake : (c.iterators.take names.length).length = names.length := by
    rw [List.length_take, Computation.iterators, List.length_map]
    exact Nat.min_eq_left hlength
  have hzip : c.iterators.zip names = (c.iterators.take names.length).zip names := by
    rw [List.zip_eq_zip_take_min, Nat.min_eq_right (by rwa [Computation.iterators, List.length_map]),
      List.take_length]
  have hfst : r.map Prod.fst = c.iterators := by
    rw [hr, List.map_append, hfresh, freshNames_map_fst, hzip, List.map_fst_zip (Nat.le_of_eq htake), hiterators]
  have hsnd : r.map Prod.snd = names ++ fresh.map Prod.snd := by
    rw [hr, List.map_append, List.map_snd_zip]
    rwa [Computation.iterators, List.length_map]
  have hmap : c.iterators.map r.apply = names ++ fresh.map Prod.snd := by
    rw [← hsnd, ← hfst]
    exact Renaming.map_apply (hfst ▸ hc)
  have hparts := hmap
  rw [← hiterators, List.map_append] at hparts
  obtain ⟨hshared, hrest⟩ := List.append_inj hparts (by rw [List.length_map, htake])
  exact ⟨hshared, hrest, hmap⟩

theorem placed_of_place {s s' : State} {index : Nat} {c : Computation} {buffers : List Buffer}
    (hc : c.WellFormed buffers) (h : place s index c = .ok s') : ∃ path shared fresh n r,
      Shares s.roots c path shared ∧ s'.roots = modifyChildren (· ++ [n]) path s.roots ∧
      Placed index s s' shared fresh n ∧ List.Forall₂ (LoopOf r) fresh (c.domain.drop shared.length) ∧
      (shared ++ fresh).map Header.dim = c.iterators.map r.apply := by
  rw [place] at h
  cases hsharedLoops : sharedLoops s.roots c with
  | mk path names =>
    simp only [hsharedLoops] at h
    obtain ⟨n, hn, h⟩ := bind_eq_ok.1 h
    cases h
    obtain ⟨shared, hnames, hshares⟩ := shares_of_sharedLoops hsharedLoops
    have hlength : names.length = shared.length := by rw [hnames, List.length_map]
    obtain ⟨fresh, hloops, hnest⟩ := wrap_eq_ok hn
    obtain ⟨hshared, hrest, hmap⟩ := map_renaming s.taken hc.distinct (hlength ▸ hshares.length_le) rfl rfl
    obtain ⟨around, hnested, haround⟩ := nested_drop hc.nested names.length
    have hfresh := (dims_of_loops hloops).trans hrest
    generalize (c.iterators.zip names ++ freshNames s.taken (c.domain.drop names.length) : Renaming) = r at *
    -- the shared names and the fresh ones together are what the iterators are renamed to
    have hdims : (shared ++ fresh).map Header.dim = c.iterators.map (Renaming.apply r) := by
      rw [List.map_append, ← hnames, hfresh, ← hmap]
    refine ⟨path, shared, fresh, n, r, hshares, rfl, ⟨?_, hshares.inserts n, ?_, ?_, ?_, ?_, untagged_of_loops hloops⟩,
      hlength ▸ hloops, hdims⟩
    · have hbindings := congrArg (List.map Affine.var) hdims
      rw [List.map_map, List.map_map] at hbindings
      rw [← hnest]
      exact congrArg (fun bindings => nest fresh [.leaf ⟨index, bindings⟩]) hbindings
    · refine headersTidy_of_loops hloops hnested fun a ha => mem_scope.2 (Or.inr ?_)
      have hmem := (haround a ha).resolve_left List.not_mem_nil
      rw [← hnames, ← hshared, Computation.iterators, ← List.map_take]
      exact List.mem_map_of_mem hmem
    · rw [hfresh]
      exact freshNames_nodup _ _
    · rw [hfresh]
      exact freshNames_not_mem
    · rw [hfresh]

def Plain (roots : List Node) : Prop :=
  ∀ s ∈ leafStacksAll roots, s.2.bindings = s.1.map fun h => .var h.dim

theorem Plain.point {roots : List Node} (h : Plain roots) {s : List Header × Leaf} (hs : s ∈ leafStacksAll roots)
    (e : Valuation) : (s.2.bindings.map fun f => f.value e) = dimValues s.1 e := by
  rw [h s hs, values_of_vars]

theorem nodup_points {p : Program} {roots : List Node} (hsound : Sound p roots) (hplain : Plain roots)
    (env : Valuation) : (pointsAll env roots).Nodup := by
  have hleaf (s : List Header × Leaf) (hs : s ∈ leafStacksAll roots) : pointsBelow env s.1 (.leaf s.2) =
      ((runs env s.1).map (dimValues s.1)).map (Prod.mk s.2.computation) := by
    rw [pointsBelow, List.map_map]
    simp only [points, hplain.point hs]
    rw [← List.map_eq_flatMap]
    rfl
  refine (pointsAll_perm_leafStacks roots env).nodup_iff.2 (List.nodup_flatMap.2 ⟨fun s hs => ?_, ?_⟩)
  · rw [hleaf s hs]
    have hdims := hsound.dims.sublist (dimsAll_sublist_of_stack roots hs)
    exact (nodup_runs hdims env).map fun x y hxy => (Prod.mk.inj hxy).2
  · have hleaves := hsound.leaves
    rw [← leafStacksAll_map_snd, List.map_map] at hleaves
    refine (List.pairwise_map.1 hleaves).imp_of_mem fun hs ht hne => ?_
    simp only [Function.onFun, hleaf _ hs, hleaf _ ht]
    intro x hx hy
    obtain ⟨y, -, rfl⟩ := List.mem_map.1 hx
    obtain ⟨z, -, hz⟩ := List.mem_map.1 hy
    exact hne (Prod.mk.inj hz).1.symm

structure Grown (p : Program) (s : State) (index : Nat) : Prop where
  sound : Sound p s.roots
  plain : Plain s.roots
  taken : dimsAll s.roots ⊆ s.taken
  leaves : ((leavesAll s.roots).map Leaf.computation).Perm (List.range index)
  untagged : UntaggedAll s.roots

theorem grown_empty (p : Program) : Grown p {} 0 where
  sound := ⟨trivial, List.nodup_nil, List.nodup_nil⟩
  plain _ h := absurd h List.not_mem_nil
  taken := List.nil_subset _
  leaves := List.Perm.refl _
  untagged := trivial

theorem leafStacksAll_nest (hs : List Header) (l : Leaf) : leafStacksAll (nest hs [.leaf l]) = [(hs, l)] := by
  induction hs with
  | nil => rfl
  | cons h hs ih => simp [nest, leafStacksAll, leafStacks, ih]

namespace Placed

variable {p : Program} {s s' : State} {index : Nat} {c : Computation} {shared fresh : List Header} {n : Node}
  (h : Placed index s s' shared fresh n)
include h

theorem node_dims : n.dims = fresh.map Header.dim := by
  simpa [dimsAll_nest, dimsAll, dims] using (congrArg dimsAll h.node).symm

theorem node_leaves : n.leaves.map Leaf.computation = [index] := by
  have hleaves := congrArg leavesAll h.node
  simp only [leavesAll_nest, leavesAll, List.append_nil] at hleaves
  rw [← hleaves]
  rfl

theorem node_untagged : n.Untagged := by
  have hnest : UntaggedAll [n] := h.node ▸ untaggedAll_nest h.untagged (List.cons_ne_nil _ _) ⟨trivial, trivial⟩
  exact hnest.1

theorem node_leafStacks : n.leafStacks = [(fresh, ⟨index, (shared ++ fresh).map fun h => .var h.dim⟩)] := by
  have hstacks := congrArg leafStacksAll h.node
  rw [leafStacksAll_nest, leafStacksAll, leafStacksAll, List.append_nil] at hstacks
  exact hstacks.symm

theorem node_tidy (hc : p.computations[index]? = some c)
    (hlength : (shared ++ fresh).length = c.iterators.length) : n.Tidy p (scope [] shared) := by
  have hleaf : Leaf.Tidy p (scope [] (shared ++ fresh)) ⟨index, (shared ++ fresh).map fun h => .var h.dim⟩ := by
    refine ⟨⟨c, hc, by rw [List.length_map, hlength]⟩, fun f hf => ?_, fun f hf => ?_⟩
    · obtain ⟨h, hh, rfl⟩ := List.mem_map.1 hf
      exact Affine.over_var (mem_scope.2 (Or.inr (List.mem_map_of_mem hh)))
    · obtain ⟨h, -, rfl⟩ := List.mem_map.1 hf
      exact Affine.isCanonical_var _
  rw [scope_append] at hleaf
  have htidy : TidyAll p (scope [] shared) [n] := h.node ▸ tidyAll_nest.2 ⟨h.tidy, hleaf, trivial⟩
  exact htidy.1

theorem grown (hc : p.computations[index]? = some c)
    (hlength : (shared ++ fresh).length = c.iterators.length) (hg : Grown p s index) :
    Grown p s' (index + 1) := by
  have hdims := h.inserts.dims_perm
  rw [h.node_dims] at hdims
  have hleaves : ((leavesAll s'.roots).map Leaf.computation).Perm (List.range (index + 1)) := by
    have hperm := h.inserts.removes.leaves_perm.map Leaf.computation
    rw [List.map_append, h.node_leaves] at hperm
    rw [List.range_succ]
    exact (hperm.trans (hg.leaves.append_left [index])).trans List.perm_append_comm
  refine ⟨⟨h.inserts.tidy hg.sound.tidy (h.node_tidy hc hlength), ?_, ?_⟩, fun t ht => ?_, ?_, hleaves,
    h.inserts.untagged hg.untagged h.node_untagged⟩
  · refine hdims.nodup_iff.2 (List.nodup_append.2 ⟨h.nodup, hg.sound.dims, ?_⟩)
    rintro a ha b hb rfl
    exact h.not_taken a ha (hg.taken hb)
  · exact hleaves.nodup_iff.2 List.nodup_range
  · rcases h.inserts.mem_leafStacks ht with ht | ⟨u, hu, rfl⟩
    · exact hg.plain t ht
    · rw [h.node_leafStacks, List.mem_singleton] at hu
      rw [hu]
  · rw [h.taken]
    intro a ha
    exact (List.mem_append.1 (hdims.subset ha)).elim (List.mem_append_left _)
      fun ha => List.mem_append_right _ (hg.taken ha)

end Placed

theorem grown_placeAll {p : Program} (hp : p.WellFormed) {s s' : State} {index : Nat} {cs : List Computation}
    (hcs : p.computations.drop index = cs) (hg : Grown p s index) (h : placeAll s index cs = .ok s') :
    Grown p s' (index + cs.length) := by
  induction cs generalizing s index with
  | nil =>
    cases h
    exact hg
  | cons c cs ih =>
    obtain ⟨next, hn, h⟩ := bind_eq_ok.1 h
    have hget : p.computations[index]? = some c := by
      rw [← List.head?_drop, hcs, List.head?_cons]
    obtain ⟨-, shared, fresh, n, r, -, -, hplaced, -, hdims⟩ := placed_of_place (hp c (List.mem_of_getElem? hget)) hn
    have hlength := congrArg List.length hdims
    rw [List.length_map, List.length_map] at hlength
    rw [List.length_cons, Nat.add_comm cs.length, ← Nat.add_assoc]
    refine ih ?_ (hplaced.grown hget hlength hg) h
    rw [← List.drop_drop, hcs]
    rfl

end LoopNest.Initial

namespace LoopNest

open Node

theorem grown_of_nesting {p : Program} (hp : p.WellFormed) {roots : List Node} (h : p.nesting = .ok roots) :
    ∃ s, s.roots = roots ∧ Initial.Grown p s p.computations.length := by
  obtain ⟨s, hs, h⟩ := bind_eq_ok.1 h
  have hgrown := Initial.grown_placeAll hp rfl (Initial.grown_empty p) hs
  rw [Nat.zero_add] at hgrown
  exact ⟨s, pure_eq_ok.1 h, hgrown⟩

theorem sound_of_nesting {p : Program} (hp : p.WellFormed) {roots : List Node} (h : p.nesting = .ok roots) :
    Sound p roots ∧ ∀ env, (pointsAll env roots).Nodup := by
  obtain ⟨s, rfl, hg⟩ := grown_of_nesting hp h
  exact ⟨hg.sound, Initial.nodup_points hg.sound hg.plain⟩

end LoopNest

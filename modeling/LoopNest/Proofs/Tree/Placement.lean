import LoopNest.Proofs.Description.Sharing
import LoopNest.Proofs.Tree.Initial

/-!
How the initial tree grows. Every computation finds a place; the loops around its leaf stand for the
dimensions of its domain, whether it has them for itself or shares them; and where it shares loops with
another computation, its instances keep behind those of the other in each iteration.
-/

namespace LoopNest

open Node

def Header.dimension (h : Header) : Dimension := ⟨h.dim, h.lower, h.upper⟩

structure Follows (hs : List Header) (ds : List Dimension) : Prop where
  renames : ∃ ρ, List.Forall₂ (Dimension.Renames ρ) ds (hs.map Header.dimension)
  clamp : ∀ h ∈ hs, h.clamp = none

theorem Follows.length_eq {hs : List Header} {ds : List Dimension} (h : Follows hs ds) : hs.length = ds.length := by
  obtain ⟨ρ, hρ⟩ := h.renames
  rw [hρ.length_eq, List.length_map]

theorem names_of_headers (hs : List Header) : (hs.map Header.dimension).map Dimension.name = hs.map Header.dim := by
  rw [List.map_map]
  rfl

theorem Follows.of_dims {hs : List Header} {ds : List Dimension} (h : Follows hs ds)
    (hover : ∀ d ∈ ds, d.Over (ds.map Dimension.name)) {ρ : String → String}
    (hdims : hs.map Header.dim = (ds.map Dimension.name).map ρ) :
    List.Forall₂ (Dimension.Renames ρ) ds (hs.map Header.dimension) := by
  obtain ⟨σ, hσ⟩ := h.renames
  have hnames := Dimension.names_of_renames hσ
  rw [names_of_headers, hdims] at hnames
  have hagree : ∀ a ∈ ds.map Dimension.name, σ a = ρ a := List.map_inj_left.1 hnames.symm
  refine (List.forall₂_and_left (p := (· ∈ ds)) _ _).2 ⟨fun d hd => hd, hσ⟩ |>.imp fun d e ⟨hd, hrenames⟩ => ?_
  exact hrenames.congr (hover d hd) (List.mem_map_of_mem hd) hagree

/-- Among these instances, those of `c` run behind those of `other` with the same first `count` iterators, and
before those of `other` with later ones. -/
def StaysBehind (xs : List (Nat × List Int)) (c other count : Nat) : Prop :=
  ∀ q r, (c, q) ∈ xs → (other, r) ∈ xs →
    (r.take count = q.take count → Precedes xs (other, r) (c, q)) ∧
      (q.take count < r.take count → Precedes xs (c, q) (other, r))

theorem StaysBehind.mono {xs ys : List (Nat × List Int)} {c other count : Nat} (h : StaysBehind xs c other count)
    (hsub : xs.Sublist ys) (hc : ∀ q, (c, q) ∈ ys → (c, q) ∈ xs) (hother : ∀ r, (other, r) ∈ ys → (other, r) ∈ xs) :
    StaysBehind ys c other count := by
  intro q r hq hr
  obtain ⟨hsame, hlater⟩ := h q r (hc q hq) (hother r hr)
  exact ⟨fun heq => (hsame heq).mono hsub, fun hlt => (hlater hlt).mono hsub⟩

namespace Initial

section Totality

def NormalOver (names : List String) (ds : List Dimension) : Prop :=
  ∀ d ∈ ds, (d.lower.Normal ∧ d.upper.Normal) ∧ d.Over names

theorem exists_bound {r : Renaming} {names : List String} (hr : (names.map r.apply).Nodup) {f : Affine}
    (hf : f.Normal) (hover : f.Over names) :
    ∃ g, f.bindVars (fun a => .var (r.apply a)) = .ok g ∧ f.Renames r.apply g :=
  Affine.exists_renamed hf (hf.nodup_atoms.map_on fun a ha b hb hab =>
    List.inj_on_of_nodup_map hr (hover a ha) (hover b hb) hab)

theorem exists_wrap {r : Renaming} {names : List String} (hr : (names.map r.apply).Nodup) (inner : Node)
    {ds : List Dimension} (hds : NormalOver names ds) : ∃ n, wrap r inner ds = .ok n := by
  induction ds with
  | nil => exact ⟨inner, rfl⟩
  | cons d ds ih =>
    obtain ⟨⟨⟨hlowerNormal, hupperNormal⟩, hlowerOver, hupperOver⟩, hds⟩ := List.forall_mem_cons.1 hds
    obtain ⟨body, hbody⟩ := ih hds
    obtain ⟨lower, hlower, -⟩ := exists_bound hr hlowerNormal hlowerOver
    obtain ⟨upper, hupper, -⟩ := exists_bound hr hupperNormal hupperOver
    exact ⟨_, by rw [wrap, hbody, ok_bind, hlower, ok_bind, hupper]; rfl⟩

theorem renames_of_loops {r : Renaming} {names : List String} (hr : (names.map r.apply).Nodup) {hs : List Header}
    {ds : List Dimension} (hloops : List.Forall₂ (LoopOf r) hs ds) (hds : NormalOver names ds) :
    List.Forall₂ (Dimension.Renames r.apply) ds (hs.map Header.dimension) := by
  induction hloops with
  | nil => exact .nil
  | cons hloop _ ih =>
    obtain ⟨⟨⟨hlowerNormal, hupperNormal⟩, hlowerOver, hupperOver⟩, hds⟩ := List.forall_mem_cons.1 hds
    obtain ⟨lower, hlower, hlowerRenames⟩ := exists_bound hr hlowerNormal hlowerOver
    obtain ⟨upper, hupper, hupperRenames⟩ := exists_bound hr hupperNormal hupperOver
    cases hloop.lower.symm.trans hlower
    cases hloop.upper.symm.trans hupper
    exact .cons ⟨hloop.dim, hlowerRenames, hupperRenames⟩ (ih hds)

theorem normalOver_of_normal {c : Computation} {buffers : List Buffer} (hc : c.WellFormed buffers)
    (hnormal : c.Normal) : NormalOver c.iterators c.domain := fun d hd =>
  ⟨hnormal.bounds d hd, Dimension.over_of_nested hc.nested d hd⟩

theorem exists_place {p : Program} {s : State} {index : Nat} (hg : Grown p s index) {c : Computation}
    {buffers : List Buffer} (hc : c.WellFormed buffers) (hnormal : c.Normal) (i : Nat) :
    ∃ s', place s i c = .ok s' := by
  rw [place]
  cases hsharedLoops : sharedLoops s.roots c with
  | mk path names =>
    obtain ⟨shared, hnames, hshares⟩ := shares_of_sharedLoops hsharedLoops
    have hlength : names.length ≤ c.depth := by
      rw [hnames, List.length_map]
      exact hshares.length_le
    have hmap := (map_renaming s.taken hc.distinct hlength rfl rfl).2.2
    -- shared loops have the names in the tree, and the fresh names are none of them
    have hdistinct : (c.iterators.map (Renaming.apply (c.iterators.zip names ++
        freshNames s.taken (c.domain.drop names.length)))).Nodup := by
      have hdims : names.Sublist (dimsAll s.roots) := by
        rw [hnames]
        exact hshares.dims_sublist
      rw [hmap, List.nodup_append]
      refine ⟨hg.sound.dims.sublist hdims, freshNames_nodup _ _, ?_⟩
      rintro a ha b hb rfl
      exact freshNames_not_mem a hb (hg.taken (hdims.subset ha))
    have hdrop : NormalOver c.iterators (c.domain.drop names.length) := fun d hd =>
      normalOver_of_normal hc hnormal d (List.mem_of_mem_drop hd)
    obtain ⟨n, hn⟩ := exists_wrap hdistinct (.leaf ⟨i, c.iterators.map fun a => .var (Renaming.apply
      (c.iterators.zip names ++ freshNames s.taken (c.domain.drop names.length)) a)⟩) hdrop
    simp only [hn, ok_bind]
    exact ⟨_, rfl⟩

end Totality

def Mirrors (p : Program) (roots : List Node) : Prop :=
  ∀ s ∈ leafStacksAll roots, ∀ c, p.computations[s.2.computation]? = some c → Follows s.1 c.domain

structure Arranged (p : Program) (s : State) (index : Nat) : Prop where
  grown : Grown p s index
  mirrors : Mirrors p s.roots
  behind : ∀ (i : Nat) (c : Computation) (other level : Nat), i < index → p.computations[i]? = some c →
    c.after = some (other, level) → ∀ env, StaysBehind (pointsAll env s.roots) i other (level + 1)

theorem arranged_empty (p : Program) : Arranged p {} 0 where
  grown := grown_empty p
  mirrors _ h := absurd h List.not_mem_nil
  behind _ _ _ _ h := absurd h (Nat.not_lt_zero _)

section Step

variable {p : Program} {s s' : State} {index : Nat} {c : Computation} (ha : Arranged p s index)
  (hshares : p.SharesEarlier) (hc : p.computations[index]? = some c)

include ha in
theorem mem_leaves_iff {i : Nat} : i ∈ (leavesAll s.roots).map Leaf.computation ↔ i < index := by
  rw [ha.grown.leaves.mem_iff, List.mem_range]

include ha in
theorem lt_of_mem_points {env : Valuation} {x : Nat × List Int} (hx : x ∈ pointsAll env s.roots) : x.1 < index :=
  (mem_leaves_iff ha).1 (mem_leaves_of_points hx)

include ha hshares hc in
theorem Shares.of_after {path : Path} {shared : List Header} (h : Shares s.roots c path shared) {i level : Nat}
    (hafter : c.after = some (i, level)) : ∃ l path' hs other, l.computation = i ∧ Occurs (leaf l) s.roots path' hs ∧
      p.computations[i]? = some other ∧ c.SharesLoops other level ∧ Follows hs other.domain ∧
      path = path'.take (level + 1) ∧ shared = hs.take (level + 1) := by
  obtain ⟨hlt, other, hother, hloops⟩ := hshares index c i level hc hafter
  cases h with
  | alone hnone =>
    obtain ⟨path, hpath⟩ := exists_leafPath? ((mem_leaves_iff ha).2 hlt)
    cases (hnone i level hafter).symm.trans hpath
  | @behind i' level' k l path hs hafter' hl ho hk =>
    cases hafter.symm.trans hafter'
    have hfollows := ha.mirrors _ ho.mem_leafStacks other (hl ▸ hother)
    have hk : k = level + 1 := by
      have hdepth := hloops.depth
      have hotherDepth := hloops.otherDepth
      have hlength : hs.length = other.domain.length := hfollows.length_eq
      rw [Computation.depth] at hdepth hotherDepth hk
      omega
    subst hk
    exact ⟨l, path, hs, other, hl, ho, hother, hloops, hfollows, rfl, rfl⟩

include ha hshares hc in
theorem follows_shared {path : Path} {shared : List Header} (h : Shares s.roots c path shared) :
    Follows shared (c.domain.take shared.length) := by
  cases hafter : c.after with
  | none =>
    cases h with
    | alone => exact ⟨⟨id, .nil⟩, nofun⟩
    | behind hafter' => cases hafter.symm.trans hafter'
  | some after =>
    obtain ⟨i, level⟩ := after
    obtain ⟨l, path', hs, other, -, -, -, hloops, hfollows, -, rfl⟩ := h.of_after ha hshares hc hafter
    obtain ⟨ρ, hρ⟩ := hloops.renames
    obtain ⟨σ, hσ⟩ := hfollows.renames
    have hlength : (hs.take (level + 1)).length = level + 1 := by
      have hotherDepth := hloops.otherDepth
      rw [List.length_take, hfollows.length_eq]
      rw [Computation.depth] at hotherDepth
      omega
    refine ⟨⟨σ ∘ ρ, ?_⟩, fun h hh => hfollows.clamp h (List.mem_of_mem_take hh)⟩
    rw [hlength, List.map_take]
    exact forall₂_trans (fun _ _ _ h h' => h.trans h') hρ (List.forall₂_take (level + 1) hσ)

include ha hshares hc in
theorem follows_of_placed (hp : p.WellFormed) (hnormal : c.Normal) {path : Path} {shared fresh : List Header}
    {r : Renaming} (h : Shares s.roots c path shared)
    (hloops : List.Forall₂ (LoopOf r) fresh (c.domain.drop shared.length))
    (hdims : (shared ++ fresh).map Header.dim = c.iterators.map r.apply)
    (hdistinct : ((shared ++ fresh).map Header.dim).Nodup) : Follows (shared ++ fresh) c.domain := by
  have hwf := hp c (List.mem_of_getElem? hc)
  have hshared := follows_shared ha hshares hc h
  have hlength : shared.length ≤ c.iterators.length := by
    rw [Computation.iterators, List.length_map]
    exact h.length_le
  have hsharedDims : shared.map Header.dim = ((c.domain.take shared.length).map Dimension.name).map r.apply := by
    have htake := congrArg (List.take shared.length) hdims
    rw [List.map_append, List.take_left' (List.length_map _)] at htake
    rw [htake, List.map_take, List.map_take]
    rfl
  have hover : ∀ d ∈ c.domain.take shared.length, d.Over ((c.domain.take shared.length).map Dimension.name) :=
    Dimension.over_of_nested (Dimension.nested_take hwf.nested shared.length)
  have hfresh := renames_of_loops (hdims ▸ hdistinct) hloops fun d hd =>
    normalOver_of_normal hwf hnormal d (List.mem_of_mem_drop hd)
  have hclamp : ∀ h ∈ fresh, h.clamp = none := by
    intro h hh
    obtain ⟨_, _, hloop⟩ := exists_of_forall₂ hloops hh
    exact hloop.clamp
  refine ⟨⟨r.apply, ?_⟩, List.forall_mem_append.2 ⟨hshared.clamp, hclamp⟩⟩
  rw [← List.take_append_drop shared.length c.domain, List.map_append]
  exact List.rel_append (hshared.of_dims hover hsharedDims) hfresh

include ha in
theorem distinct_of_placed {path : Path} {shared fresh : List Header} {n : Node} (hs : Shares s.roots c path shared)
    (h : Placed index s s' shared fresh n) : ((shared ++ fresh).map Header.dim).Nodup := by
  rw [List.map_append, List.nodup_append]
  refine ⟨ha.grown.sound.dims.sublist hs.dims_sublist, h.nodup, ?_⟩
  rintro a hshared b hfresh rfl
  exact h.not_taken a hfresh (ha.grown.taken (hs.dims_sublist.subset hshared))

theorem mem_points_of_placed {shared fresh : List Header} {n : Node} (h : Placed index s s' shared fresh n)
    (hdistinct : ((shared ++ fresh).map Header.dim).Nodup) {env : Valuation} {x : Nat × List Int}
    (hmem : x ∈ pointsAll env s'.roots) : x ∈ pointsAll env s.roots ∨ x.1 = index ∧
      ∃ e ∈ runs env shared, x ∈ n.points e ∧ x.2.take shared.length = dimValues shared e := by
  rcases List.mem_append.1 ((h.inserts.removes.points_perm env).mem_iff.1 hmem) with hnew | hold
  · obtain ⟨e, he, hpoint⟩ := List.mem_flatMap.1 hnew
    have hinside : x ∈ pointsAll e [n] := by rwa [pointsAll, pointsAll, List.append_nil]
    rw [← h.node, pointsAll_nest] at hinside
    obtain ⟨e', he', hleaf⟩ := List.mem_flatMap.1 hinside
    simp only [pointsAll, points, List.append_nil, List.mem_singleton, values_of_vars] at hleaf
    have hapart : ∀ y ∈ shared, y.dim ∉ fresh.map Header.dim := by
      rw [List.map_append, List.nodup_append] at hdistinct
      exact fun y hy hmem => hdistinct.2.2 _ (List.mem_map_of_mem hy) _ hmem rfl
    refine Or.inr ⟨congrArg Prod.fst hleaf, e, he, hpoint, ?_⟩
    rw [hleaf, dimValues_take, List.take_left, dimValues_of_run hapart he']
  · exact Or.inl hold

include ha hshares hc in
theorem behind_of_placed {path : Path} {shared fresh : List Header} {n : Node} (hs : Shares s.roots c path shared)
    (h : Placed index s s' shared fresh n) (hroots : s'.roots = modifyChildren (· ++ [n]) path s.roots)
    {i level : Nat} (hafter : c.after = some (i, level)) (env : Valuation) :
    StaysBehind (pointsAll env s'.roots) index i (level + 1) := by
  have hdistinct := distinct_of_placed ha hs h
  have hlt : i < index := (hshares index c i level hc hafter).1
  obtain ⟨l, path', ho, other, rfl, hoccurs, -, hloops, hfollows, rfl, rfl⟩ := hs.of_after ha hshares hc hafter
  have hdepth : level + 1 ≤ ho.length := hfollows.length_eq ▸ hloops.otherDepth
  intro q r hq hr
  obtain ⟨-, e', he', hnew, hqValues⟩ := (mem_points_of_placed h hdistinct hq).resolve_left
    fun hold => Nat.lt_irrefl _ (lt_of_mem_points ha hold)
  have hold := (mem_points_of_placed h hdistinct hr).resolve_right fun hnew => Nat.ne_of_lt hlt hnew.1
  have hfilter : (l.computation, r) ∈ pointsBelow env ho (leaf l) := by
    rw [← hoccurs.filter_points ha.grown.sound.leaves env]
    exact List.mem_filter.2 ⟨hold, beq_self_eq_true _⟩
  obtain ⟨e, he, hr⟩ := mem_pointsBelow_leaf.1 hfilter
  have hrValues : r = dimValues ho e := by
    rw [← ha.grown.plain.point hoccurs.mem_leafStacks e]
    exact congrArg Prod.snd hr
  rw [List.length_take, Nat.min_eq_left hdepth] at hqValues
  have hbehind := hoccurs.precedes_of_append hdepth
    (ha.grown.sound.dims.sublist (dimsAll_sublist_of_stack _ hoccurs.mem_leafStacks)) he he'
    (List.mem_singleton.2 hr) hnew
  rw [hroots, hqValues, hrValues, dimValues_take]
  exact hrValues ▸ hbehind

include ha hshares hc in
theorem arranged_place (hp : p.WellFormed) (hnormal : c.Normal) (h : place s index c = .ok s') :
    Arranged p s' (index + 1) := by
  obtain ⟨path, shared, fresh, n, r, hs, hroots, hplaced, hloops, hdims⟩ :=
    placed_of_place (hp c (List.mem_of_getElem? hc)) h
  have hdistinct := distinct_of_placed ha hs hplaced
  have hlength := congrArg List.length hdims
  rw [List.length_map, List.length_map] at hlength
  refine ⟨hplaced.grown hc hlength ha.grown, fun t ht c' hc' => ?_, fun i c' other level hi hc' hafter env => ?_⟩
  · rcases hplaced.inserts.mem_leafStacks ht with ht | ⟨u, hu, rfl⟩
    · exact ha.mirrors t ht c' hc'
    · rw [hplaced.node_leafStacks, List.mem_singleton] at hu
      subst hu
      cases hc.symm.trans hc'
      exact follows_of_placed ha hshares hc hp hnormal hs hloops hdims hdistinct
  · rcases Nat.lt_succ_iff_lt_or_eq.1 hi with hi | rfl
    · have hother := (hshares i c' other level hc' hafter).1
      have hold {x : Nat × List Int} (hx : x.1 < index) (hmem : x ∈ pointsAll env s'.roots) :
          x ∈ pointsAll env s.roots :=
        (mem_points_of_placed hplaced hdistinct hmem).resolve_right fun hnew => Nat.ne_of_lt hx hnew.1
      exact (ha.behind i c' other level hi hc' hafter env).mono (hplaced.inserts.points_sublist env)
        (fun q => hold hi) fun r => hold (Nat.lt_trans hother hi)
    · cases hc.symm.trans hc'
      exact behind_of_placed ha hshares hc hs hplaced hroots hafter env

end Step

theorem exists_placeAll {p : Program} (hp : p.WellFormed) (hnormal : ∀ c ∈ p.computations, c.Normal)
    (hshares : p.SharesEarlier) {s : State} {index : Nat} {cs : List Computation}
    (hcs : p.computations.drop index = cs) (ha : Arranged p s index) :
    ∃ s', placeAll s index cs = .ok s' ∧ Arranged p s' (index + cs.length) := by
  induction cs generalizing s index with
  | nil => exact ⟨s, rfl, ha⟩
  | cons c cs ih =>
    have hget : p.computations[index]? = some c := by
      rw [← List.head?_drop, hcs, List.head?_cons]
    have hmem := List.mem_of_getElem? hget
    obtain ⟨next, hnext⟩ := exists_place ha.grown (hp c hmem) (hnormal c hmem) index
    have hrest : p.computations.drop (index + 1) = cs := by
      rw [← List.drop_drop, hcs]
      rfl
    obtain ⟨s', hs', ha'⟩ := ih hrest (arranged_place ha hshares hget hp (hnormal c hmem) hnext)
    refine ⟨s', by rw [placeAll, hnext, ok_bind, hs'], ?_⟩
    rwa [List.length_cons, Nat.add_comm cs.length, ← Nat.add_assoc]

end Initial

theorem exists_nesting {d : Description} {p : Program} (hp : d.build = .ok p) :
    ∃ s, p.nesting = .ok s.roots ∧ Initial.Arranged p s p.computations.length := by
  obtain ⟨s, hs, ha⟩ := Initial.exists_placeAll (Description.wellFormed_of_build hp) (Description.normal_of_build hp)
    (Description.sharesEarlier_of_build hp) List.drop_zero (Initial.arranged_empty p)
  rw [Nat.zero_add] at ha
  exact ⟨s, by rw [Program.nesting, hs]; rfl, ha⟩

end LoopNest

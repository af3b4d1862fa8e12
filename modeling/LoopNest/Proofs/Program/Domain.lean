import LoopNest.Proofs.Kernel.Lowering
import LoopNest.Proofs.Tree.Placement

/-!
The order that a program asks for. Every computation runs at the points of its domain, in lexicographic order,
and a computation that shares loops with another one stays behind it. The initial tree runs the program so.
An access has an offset exactly where each of its indices is within the extent of its dimension.
-/

namespace LoopNest

open Node

def Dimension.Holds (d : Dimension) (env : Valuation) : Prop :=
  d.lower.value env ≤ env d.name ∧ env d.name < d.upper.value env

instance (d : Dimension) (env : Valuation) : Decidable (d.Holds env) :=
  inferInstanceAs (Decidable (d.lower.value env ≤ env d.name ∧ env d.name < d.upper.value env))

def Computation.InDomain (c : Computation) (q : List Int) : Prop :=
  q.length = c.depth ∧ ∀ d ∈ c.domain, d.Holds (pointEnv c.iterators q)

instance (c : Computation) (q : List Int) : Decidable (c.InDomain q) :=
  inferInstanceAs (Decidable (q.length = c.depth ∧ ∀ d ∈ c.domain, d.Holds (pointEnv c.iterators q)))

def pointsOf (i : Nat) (ids : List InstanceId) : List (List Int) := (ids.filter fun x => x.1 == i).map Prod.snd

theorem mem_pointsOf {i : Nat} {ids : List InstanceId} {q : List Int} : q ∈ pointsOf i ids ↔ (i, q) ∈ ids := by
  simp only [pointsOf, List.mem_map, List.mem_filter, beq_iff_eq]
  constructor
  · rintro ⟨⟨j, r⟩, ⟨hmem, rfl⟩, rfl⟩
    exact hmem
  · exact fun h => ⟨(i, q), ⟨h, rfl⟩, rfl⟩

/-- The instances of a program in an order that it asks for. -/
structure Program.InOrder (p : Program) (ids : List InstanceId) : Prop where
  known : ∀ x ∈ ids, x.1 < p.computations.length
  lexicographic : ∀ (i : Nat) (c : Computation), p.computations[i]? = some c → (pointsOf i ids).Pairwise (· < ·)
  complete : ∀ (i : Nat) (c : Computation), p.computations[i]? = some c → ∀ q, q ∈ pointsOf i ids ↔ c.InDomain q
  behind : ∀ (i : Nat) (c : Computation) (other level : Nat), p.computations[i]? = some c →
    c.after = some (other, level) → StaysBehind ids i other (level + 1)

theorem map_pointEnv {names : List String} {q : List Int} (hnames : names.Nodup) (hlength : names.length = q.length) :
    names.map (pointEnv names q) = q := by
  induction names generalizing q with
  | nil => exact (List.eq_nil_of_length_eq_zero hlength.symm).symm
  | cons a names ih =>
    obtain ⟨v, q, rfl⟩ := List.exists_cons_of_length_eq_add_one hlength.symm
    obtain ⟨hnew, hnames⟩ := List.nodup_cons.1 hnames
    have hself : pointEnv (a :: names) (v :: q) a = v := by simp [pointEnv]
    have hrest : ∀ b ∈ names, pointEnv (a :: names) (v :: q) b = pointEnv names q b := by
      intro b hb
      have hne : a ≠ b := by
        rintro rfl
        exact hnew hb
      simp [pointEnv, hne]
    rw [List.map_cons, hself, List.map_congr_left hrest, ih hnames (Nat.succ.inj hlength)]

section Follows

variable {hs : List Header}

theorem Header.mem_values_iff_holds {ρ : String → String} {h : Header} {d : Dimension}
    (hd : d.Renames ρ h.dimension) (hclamp : h.clamp = none) (env : Valuation) :
    env h.dim ∈ h.values env ↔ d.Holds (env ∘ ρ) := by
  have hname : h.dim = ρ d.name := hd.name
  have htop : h.top env = h.upper.value env := by rw [top, hclamp]
  rw [mem_values, htop, Dimension.Holds, ← hd.lower.value, ← hd.upper.value, Function.comp_apply, ← hname]
  rfl

theorem Dimension.Over.holds_congr {d : Dimension} {names : List String} (hover : d.Over names)
    (hname : d.name ∈ names) {env env' : Valuation} (h : ∀ a ∈ names, env a = env' a) :
    d.Holds env ↔ d.Holds env' := by
  rw [Holds, Holds, Affine.value_congr hover.1 h, Affine.value_congr hover.2 h, h d.name hname]

theorem Follows.values_iff {ds : List Dimension} {ρ : String → String} {hs : List Header}
    (h : List.Forall₂ (Dimension.Renames ρ) ds (hs.map Header.dimension)) (hclamp : ∀ x ∈ hs, x.clamp = none)
    (env : Valuation) : (∀ x ∈ hs, env x.dim ∈ x.values env) ↔ ∀ d ∈ ds, d.Holds (env ∘ ρ) := by
  induction hs generalizing ds with
  | nil =>
    obtain rfl := List.forall₂_nil_right_iff.1 h
    simp
  | cons x hs ih =>
    obtain ⟨d, ds, hd, hds, rfl⟩ := List.forall₂_cons_right_iff.1 h
    rw [List.forall_mem_cons, List.forall_mem_cons] at *
    rw [Header.mem_values_iff_holds hd hclamp.1, ih hds hclamp.2]

theorem mem_runs_iff_inDomain {c : Computation} {buffers : List Buffer} (hc : c.WellFormed buffers)
    (hfollows : Follows hs c.domain) (htidy : HeadersTidy [] hs) (hdims : (hs.map Header.dim).Nodup) (env : Valuation)
    (q : List Int) : q ∈ (runs env hs).map (dimValues hs) ↔ c.InDomain q := by
  obtain ⟨ρ, hρ⟩ := hfollows.renames
  have hnames : hs.map Header.dim = c.iterators.map ρ := by
    rw [← names_of_headers, Dimension.names_of_renames hρ]
    rfl
  have hdepth : hs.length = c.depth := hfollows.length_eq
  by_cases hlength : q.length = c.depth
  · have hdimValues : dimValues hs (pointEnv (hs.map Header.dim) q) = q := by
      have hmap := map_pointEnv hdims (q := q) (by rw [List.length_map, hdepth, hlength])
      rwa [List.map_map] at hmap
    -- the loops bind the values under their own names, the domain reads them under those of the iterators
    have hagree : ∀ a ∈ c.iterators, (pointEnv (hs.map Header.dim) q ∘ ρ) a = pointEnv c.iterators q a := by
      refine List.map_inj_left.1 ?_
      rw [← List.map_map, ← hnames, map_pointEnv hdims (by rw [List.length_map, hdepth, hlength]),
        map_pointEnv hc.distinct (by rw [Computation.iterators, List.length_map]; exact hlength.symm)]
    have hnone : ∀ a ∈ ([] : List String), env a = pointEnv (hs.map Header.dim) q a := List.forall_mem_nil _
    have hruns := exists_run_iff hdims htidy hnone
    rw [hdimValues, Follows.values_iff hρ hfollows.clamp] at hruns
    rw [List.mem_map, hruns, Computation.InDomain]
    refine ⟨fun h => ⟨hlength, fun d hd => ?_⟩, fun h d hd => ?_⟩
    · exact ((Dimension.over_of_nested hc.nested d hd).holds_congr (List.mem_map_of_mem hd) hagree).1 (h d hd)
    · exact ((Dimension.over_of_nested hc.nested d hd).holds_congr (List.mem_map_of_mem hd) hagree).2 (h.2 d hd)
  · refine iff_of_false (fun hq => hlength ?_) fun hq => hlength hq.1
    obtain ⟨e, -, rfl⟩ := List.mem_map.1 hq
    rw [dimValues, List.length_map, hdepth]

end Follows

theorem pointsOf_of_occurs {l : Leaf} {roots : List Node} {path : Path} {hs : List Header}
    (ho : Occurs (leaf l) roots path hs) (hleaves : ((leavesAll roots).map Leaf.computation).Nodup)
    (hplain : Initial.Plain roots) (env : Valuation) :
    pointsOf l.computation (pointsAll env roots) = (runs env hs).map (dimValues hs) := by
  rw [pointsOf, ho.filter_points hleaves, pointsBelow, List.map_flatMap]
  simp only [points, List.map_cons, List.map_nil, hplain.point ho.mem_leafStacks]
  exact List.flatMap_pure_eq_map _ _

theorem inOrder_of_arranged {p : Program} (hp : p.WellFormed) {s : Initial.State}
    (ha : Initial.Arranged p s p.computations.length) (env : Valuation) : p.InOrder (pointsAll env s.roots) := by
  have hleaf {i : Nat} {c : Computation} (hc : p.computations[i]? = some c) : ∃ hs, HeadersTidy [] hs ∧
      (hs.map Header.dim).Nodup ∧ Follows hs c.domain ∧
      pointsOf i (pointsAll env s.roots) = (runs env hs).map (dimValues hs) := by
    obtain ⟨path, hpath⟩ := exists_leafPath? ((Initial.mem_leaves_iff ha).2 (List.getElem?_eq_some_iff.1 hc).1)
    obtain ⟨l, hs, rfl, ho⟩ := occurs_of_leafPath? hpath
    have hstack := ho.mem_leafStacks
    exact ⟨hs, ho.headersTidy ha.grown.sound.tidy, ha.grown.sound.dims.sublist (dimsAll_sublist_of_stack _ hstack),
      ha.mirrors _ hstack c hc, pointsOf_of_occurs ho ha.grown.sound.leaves ha.grown.plain env⟩
  refine ⟨fun x hx => Initial.lt_of_mem_points ha hx, fun i c hc => ?_, fun i c hc q => ?_, ?_⟩
  · obtain ⟨hs, -, hdims, -, hpoints⟩ := hleaf hc
    rw [hpoints]
    exact pairwise_runs hdims env
  · obtain ⟨hs, htidy, hdims, hfollows, hpoints⟩ := hleaf hc
    rw [hpoints]
    exact mem_runs_iff_inDomain (hp c (List.mem_of_getElem? hc)) hfollows htidy hdims env q
  · intro i c other level hc hafter
    exact ha.behind i c other level (List.getElem?_eq_some_iff.1 hc).1 hc hafter env

section Accesses

def Access.InShape (p : Program) (env : Valuation) (a : Access) : Prop :=
  ∃ b, p.buffers[a.buffer]? = some b ∧
    List.Forall₂ (fun (f : Affine) (extent : Nat) => 0 ≤ f.value env ∧ f.value env < extent) a.indices b.shape

def Computation.accesses (c : Computation) : List Access := c.store :: c.reads

def Program.InBounds (p : Program) : Prop :=
  ∀ c ∈ p.computations, ∀ q, c.InDomain q → ∀ a ∈ c.accesses, a.InShape p (pointEnv c.iterators q)

theorem offsetFrom_isSome {vs : List Int} {shape : List Nat} (hlength : vs.length = shape.length) (total : Nat) :
    (offsetFrom total (vs.zip (shape.zip (rowMajorStrides shape)))).isSome ↔
      List.Forall₂ (fun (v : Int) (extent : Nat) => 0 ≤ v ∧ v < extent) vs shape := by
  induction shape generalizing vs total with
  | nil =>
    obtain rfl := List.eq_nil_of_length_eq_zero hlength
    exact iff_of_true rfl .nil
  | cons extent shape ih =>
    obtain ⟨v, vs, rfl⟩ := List.exists_cons_of_length_eq_add_one hlength
    rw [rowMajorStrides, List.zip_cons_cons, List.zip_cons_cons, offsetFrom, List.forall₂_cons]
    split
    · next hout => exact iff_of_false Bool.false_ne_true fun hin => by omega
    · next hin =>
      rw [ih (Nat.succ.inj hlength)]
      exact ⟨fun h => ⟨by omega, h⟩, fun h => h.2⟩

theorem Access.inShape_iff {p : Program} {names : List String} {a : Access} (ha : a.WellFormed p.buffers names)
    (env : Valuation) : a.InShape p env ↔ (a.locationAt p env).2.isSome := by
  obtain ⟨b, hb, hlength⟩ := ha.buffer
  rw [InShape, locationAt, hb]
  simp only [Option.some.injEq, exists_eq_left']
  rw [Buffer.strides, offsetFrom_isSome (by simpa using hlength), List.forall₂_map_left_iff]

theorem Access.locationAt_buffer (p : Program) (env : Valuation) (a : Access) : (a.locationAt p env).1 = a.buffer := by
  rw [locationAt]
  split <;> rfl

theorem Computation.WellFormed.accesses {c : Computation} {buffers : List Buffer} (h : c.WellFormed buffers) :
    ∀ a ∈ c.accesses, a.WellFormed buffers c.iterators :=
  List.forall_mem_cons.2 ⟨h.store, h.expr.loads⟩

end Accesses

end LoopNest

import LoopNest.Proofs.Cost.Instances

/-!
The ranges of loop variables in the estimate are sound: wherever a walk goes, the value of every loop is within the
range that its layer holds. So the estimate always has bounds for its forms, and nothing but arithmetic stops it.
-/

namespace LoopNest

open Node Kernel Cost

namespace Cost

def Layer.Holds (f : Layer) (v : Int) : Prop := f.low ≤ v ∧ v ≤ f.high

section Layers

variable {fs : Layers} {h : Header} {f : Layer} {e : Valuation} {v : Int}

theorem dim_of_layer (hf : layer fs h = .ok f) : f.dim = h.dim := by
  simp only [layer, bind_eq_ok, lift_eq_ok] at hf
  obtain ⟨_, -, _, -, _, -, _, -, _, -, _, -, hf⟩ := hf
  cases hf
  rfl

theorem dims_of_layersOf {hs : List Header} {gs : Layers} (hgs : layersOf fs hs = .ok gs) :
    gs.map Layer.dim = (hs.map Header.dim).reverse ++ fs.map Layer.dim := by
  induction hs generalizing fs with
  | nil =>
    cases hgs
    rfl
  | cons h hs ih =>
    obtain ⟨f, hf, hgs⟩ := bind_eq_ok.1 hgs
    rw [ih hgs, List.map_cons, List.map_cons, dim_of_layer hf]
    simp

theorem boundsOf_enclose {dim : String} {g : Affine} {b : Int × Int} (hw : Affine.Within (rangeOf fs) e)
    (hb : boundsOf fs dim g = .ok b) : b.1 ≤ g.value e ∧ g.value e ≤ b.2 :=
  Affine.bounds_enclose hw (boundsOf_eq_ok hb)

theorem upperBounds_enclose {b : Int × Int} (hw : Affine.Within (rangeOf fs) e) (hb : upperBounds fs h = .ok b) :
    b.1 ≤ h.top e ∧ h.top e ≤ b.2 := by
  obtain ⟨whole, hwhole, hb⟩ := bind_eq_ok.1 hb
  have hupper := boundsOf_enclose hw hwhole
  cases hc : h.clamp with
  | none =>
    rw [hc] at hb
    cases hb
    simpa only [Header.top, hc] using hupper
  | some c =>
    rw [hc] at hb
    obtain ⟨cut, hcut, hb⟩ := bind_eq_ok.1 hb
    cases hb
    have hclamp := boundsOf_enclose hw hcut
    simp only [Header.top, hc]
    omega

theorem holds_of_layer (hw : Affine.Within (rangeOf fs) e) (hf : layer fs h = .ok f) (hv : v ∈ h.values e) :
    f.Holds v := by
  simp only [layer, bind_eq_ok, lift_eq_ok] at hf
  obtain ⟨lower, hlower, upper, hupper, _, -, _, -, _, -, last, hlast, hf⟩ := hf
  cases hf
  have hlow := boundsOf_enclose hw hlower
  have hhigh := upperBounds_enclose hw hupper
  rw [Word.sub_eq_ok] at hlast
  rw [Header.mem_values] at hv
  simp only [Layer.Holds]
  omega

theorem within_valuation {env : Env} (hfs : List.Forall₂ Layer.Holds fs env) :
    Affine.Within (rangeOf fs) (Numbering.valuation (fs.map Layer.dim) env) := by
  induction hfs with
  | nil => exact fun a l u ha => nomatch ha
  | @cons f v fs env hf _ ih =>
    intro a l u ha
    rw [List.map_cons, Numbering.valuation]
    by_cases hdim : f.dim = a
    · subst hdim
      simp only [rangeOf, List.find?_cons, beq_self_eq_true, Option.map_some, Option.some.injEq, Prod.mk.injEq] at ha
      obtain ⟨rfl, rfl⟩ := ha
      rw [Function.update_self]
      exact hf
    · have hrest : rangeOf fs a = some (l, u) := by simpa [rangeOf, List.find?_cons, hdim] using ha
      rw [Function.update_of_ne (Ne.symm hdim)]
      exact ih a l u hrest

end Layers

section Instances

variable {p : Program}

/-- The instance belongs to this leaf, and wherever the loops around it have layers, these hold its values. -/
structure Encloses (p : Program) (scope : List String) (env : Env) (stack : List Header × Leaf) (i : Instance) :
    Prop where
  statement : Numbering.statement p ((stack.1.map Header.dim).reverse ++ scope) stack.2 = .ok i.statement
  holds : ∀ fs gs, fs.map Layer.dim = scope → List.Forall₂ Layer.Holds fs env → layersOf fs stack.1 = .ok gs →
    List.Forall₂ Layer.Holds gs i.env

theorem Encloses.loop {h : Header} {scope : List String} {env : Env} (hlength : scope.length = env.length) {v : Int}
    (hv : v ∈ h.values (Numbering.valuation scope env)) {stack : List Header × Leaf} {i : Instance}
    (hi : Encloses p (h.dim :: scope) (v :: env) stack i) : Encloses p scope env (h :: stack.1, stack.2) i := by
  constructor
  · simpa using hi.statement
  · intro fs gs hscope hfs hgs
    obtain ⟨f, hf, hgs⟩ := bind_eq_ok.1 hgs
    apply hi.holds (f :: fs) gs _ _ hgs
    · rw [List.map_cons, dim_of_layer hf, hscope]
    · subst hscope
      exact .cons (holds_of_layer (within_valuation hfs) hf hv) hfs

mutual

theorem exists_encloses (n : LoopNest.Node) {scope : List String} {next next' : Nat} {k : Kernel.Node}
    (hk : Numbering.node p scope next n = .ok (k, next')) {env : Env} (hlength : scope.length = env.length)
    {concurrent : List Iteration} : ∀ i ∈ instancesNode env concurrent k,
      ∃ stack ∈ n.leafStacks, Encloses p scope env stack i := by
  cases n with
  | leaf l =>
    obtain ⟨st, hst, rfl, -⟩ := Numbering.node_leaf_eq_ok hk
    intro i hi
    obtain rfl := List.mem_singleton.1 hi
    refine ⟨_, List.mem_singleton_self _, hst, fun fs gs _ hfs hgs => ?_⟩
    cases hgs
    exact hfs
  | loop h body =>
    obtain ⟨r, ks, hr, hbody, rfl⟩ := Numbering.node_loop_eq_ok hk
    intro i hi
    rw [instancesNode, Numbering.values_of_range hlength hr] at hi
    obtain ⟨v, hv, hi⟩ := List.mem_flatMap.1 hi
    have hlonger : (h.dim :: scope).length = (v :: env).length := by simp [hlength]
    obtain ⟨stack, hstack, hencloses⟩ := exists_encloses_all body hbody hlonger i hi
    exact ⟨_, mem_leafStacks_loop.2 ⟨stack, hstack, rfl⟩, hencloses.loop hlength hv⟩

theorem exists_encloses_all (ns : List LoopNest.Node) {scope : List String} {next next' : Nat} {ks : List Kernel.Node}
    (hk : Numbering.nodes p scope next ns = .ok (ks, next')) {env : Env} (hlength : scope.length = env.length)
    {concurrent : List Iteration} : ∀ i ∈ instancesNodes env concurrent ks,
      ∃ stack ∈ leafStacksAll ns, Encloses p scope env stack i := by
  cases ns with
  | nil =>
    cases hk
    exact fun i hi => absurd hi List.not_mem_nil
  | cons n ns =>
    obtain ⟨k, mid, rest, hn, hns, rfl⟩ := Numbering.nodes_cons_eq_ok hk
    intro i hi
    rw [instancesNodes, List.mem_append] at hi
    rcases hi with hi | hi
    · obtain ⟨stack, hstack, hencloses⟩ := exists_encloses n hn hlength i hi
      exact ⟨stack, List.mem_append_left _ hstack, hencloses⟩
    · obtain ⟨stack, hstack, hencloses⟩ := exists_encloses_all ns hns hlength i hi
      exact ⟨stack, List.mem_append_right _ hstack, hencloses⟩

end

end Instances

section Failures

variable {m : Machine} {p : Program}

theorem footprintIndices_failsOnly (l : Leaf) (fs : List Affine) :
    FailsOnlyBy .overflow (footprintIndices p l fs) := by
  induction fs with
  | nil => exact .ok _
  | cons f fs ih => exact (Affine.bindVars_failsOnly f _).bind fun _ _ => ih.bind fun _ _ => .ok _

theorem footprint_failsOnly (l : Leaf) (a : Access) : FailsOnlyBy .overflow (footprint p l a) := by
  refine (footprintIndices_failsOnly l _).bind fun indices _ => ?_
  cases p.buffers[a.buffer]? with
  | some b => exact .ok _
  | none => exact .ok _

theorem footprints_failsOnly (l : Leaf) (as : List Access) : FailsOnlyBy .overflow (footprints p l as) := by
  induction as with
  | nil => exact .ok _
  | cons a as ih => exact (footprint_failsOnly l a).bind fun _ _ => ih.bind fun _ _ => .ok _

theorem costOfLeaf_failsOnly {l : Leaf} {names : List String} (hl : l.Tidy p names) (fs : Layers) :
    FailsOnlyBy .overflow (costOfLeaf m p fs l) := by
  obtain ⟨c, hc, -⟩ := hl.computation
  simp only [costOfLeaf, hc]
  exact (footprints_failsOnly l _).bind fun _ _ => .ok _

mutual

theorem node_failsOnly (n : LoopNest.Node) {fs : Layers} (hn : n.Tidy p (fs.map Layer.dim)) :
    FailsOnlyBy (.fault .overflow) (node m p fs n) := by
  cases n with
  | leaf l => exact (costOfLeaf_failsOnly hn fs).lift.bind fun _ _ => .ok _
  | loop h body =>
    rw [node]
    refine (layer_failsOnly rfl hn.1).bind fun f hf => ?_
    have hbody : TidyAll p ((f :: fs).map Layer.dim) body := by
      rw [List.map_cons, dim_of_layer hf]
      exact hn.2
    exact (nodes_failsOnly body hbody _).bind fun _ _ => .ok _

theorem nodes_failsOnly (ns : List LoopNest.Node) {fs : Layers} (hns : TidyAll p (fs.map Layer.dim) ns)
    (total : Float) : FailsOnlyBy (.fault .overflow) (nodes m p fs total ns) := by
  cases ns with
  | nil => exact .ok _
  | cons n ns =>
    rw [nodes]
    exact (node_failsOnly n hns.1).bind fun _ _ => (nodes_failsOnly ns hns.2 _).bind fun _ _ => .ok _

end

theorem layersOf_failsOnly {fs : Layers} {hs : List Header} (ht : HeadersTidy (fs.map Layer.dim) hs) :
    FailsOnlyBy (.fault .overflow) (layersOf fs hs) := by
  induction hs generalizing fs with
  | nil => exact .ok _
  | cons h hs ih =>
    refine (layer_failsOnly rfl ht.1).bind fun f hf => ih ?_
    rw [List.map_cons, dim_of_layer hf]
    exact ht.2

end Failures

end Cost

def Instance.collect {ε : Type} (i : Instance) (is : List Instance) : Outcome ε (List Instance) := .ok (is ++ [i])

def Program.visited (p : Program) (roots : List LoopNest.Node) : Numbered (List Instance) := do
  let k ← Kernel.ofTree p roots
  k.walk Instance.collect []

namespace Program

variable {p : Program} {roots : List LoopNest.Node}

theorem visitAll_collect {ε : Type} (t is : List Instance) :
    visitAll (ε := ε) Instance.collect t is = .ok (is ++ t) := by
  induction t generalizing is with
  | nil => simp
  | cons i t ih => rw [visitAll_cons, Instance.collect, ok_bind, ih, List.append_assoc, List.singleton_append]

theorem visited_eq_ok {is : List Instance} (h : p.visited roots = .ok is) :
    ∃ k, Kernel.ofTree p roots = .ok k ∧ is = k.instances := by
  obtain ⟨k, hk, h⟩ := bind_eq_ok.1 h
  obtain ⟨t, ht, hvisits⟩ := (walk_eq_ok_iff _).1 h
  rw [visitAll_collect, List.nil_append] at hvisits
  cases hvisits
  exact ⟨k, hk, trace_eq ht⟩

theorem visited_failsOnly (hp : p.WellFormed) (h : TidyAll p [] roots) :
    FailsOnlyBy overflowing (p.visited roots) :=
  (ofTree_failsOnly hp h).bind fun k _ => k.walk_failsOnly Instance.collect rfl fun _ _ _ _ _ _ => .ok _

end Program

/-- The ranges of the estimate are sound on every tree that transformations lead to. Nothing but an overflow stops the
estimate or the walk. Wherever the walk goes, the loops around the instance have their values in the ranges of the
layers with which the estimate comes to its leaf. -/
theorem ranges_enclose_walk {description : Description} {p : Program} (hp : description.build = .ok p) {n : Nest}
    (hr : Reshaped p n.roots) :
    (∀ m : Machine, FailsOnlyBy (.fault .overflow) ((m.evaluator p).evaluate n)) ∧
    FailsOnlyBy overflowing (p.visited n.roots) ∧
    ∀ is, p.visited n.roots = .ok is → ∀ i ∈ is, ∃ stack ∈ leafStacksAll n.roots,
      Numbering.statement p (stack.1.map Header.dim).reverse stack.2 = .ok i.statement ∧
      FailsOnlyBy (.fault .overflow) (layersOf [] stack.1) ∧
      (∀ fs, layersOf [] stack.1 = .ok fs →
        fs.map Layer.dim = (stack.1.map Header.dim).reverse ∧ List.Forall₂ Layer.Holds fs i.env) ∧
      ∀ (m : Machine) costs, m.costPerNode p n.roots = .ok costs →
        ∃ fs c, layersOf [] stack.1 = .ok fs ∧ costOfLeaf m p fs stack.2 = .ok c ∧ c ∈ costs := by
  have hwf := Description.wellFormed_of_build hp
  have hsound := hr.sound hwf
  refine ⟨fun m => (nodes_failsOnly n.roots hsound.tidy _).bind fun _ _ => .ok _,
    p.visited_failsOnly hwf hsound.tidy, fun is his i hi => ?_⟩
  obtain ⟨k, hk, rfl⟩ := Program.visited_eq_ok his
  obtain ⟨⟨body, loops⟩, hbody, hk⟩ := bind_eq_ok.1 hk
  cases hk
  obtain ⟨stack, hstack, hencloses⟩ := exists_encloses_all n.roots hbody rfl i hi
  refine ⟨stack, hstack, by simpa using hencloses.statement, layersOf_failsOnly (stack_spec hsound hstack).2,
    fun fs hfs => ⟨?_, hencloses.holds [] fs rfl .nil hfs⟩, fun m costs hcosts => charged_of_costPerNode hcosts hstack⟩
  rw [dims_of_layersOf hfs, List.map_nil, List.append_nil]

namespace Rectangle

theorem exists_visited : ∃ is, program.visited tiled = .ok is ∧
    is.map Instance.env = [[0, 0, 0], [1, 0, 0], [0, 1, 0], [0, 0, 1], [1, 0, 1], [0, 1, 1]] := ⟨_, rfl, rfl⟩

end Rectangle

theorem ranges_enclose_walk_rectangle : ∃ is fs, Rectangle.program.visited Rectangle.tiled = .ok is ∧
    is.length = 6 ∧ layersOf [] Rectangle.tiles = .ok fs ∧ fs.map Layer.dim = ["j1", "j0", "i"] ∧
    ∀ i ∈ is, List.Forall₂ Layer.Holds fs i.env := by
  have hrows : Reshaped Rectangle.program Rectangle.rows := .initial Rectangle.nesting_eq
  obtain ⟨is, his, henvs⟩ := Rectangle.exists_visited
  obtain ⟨fs, hfs⟩ := Rectangle.exists_layers_tiles
  obtain ⟨-, -, hranges⟩ := ranges_enclose_walk (n := ⟨Rectangle.tiled, [], none⟩) Rectangle.build_eq
    (hrows.step _ Rectangle.applyTo_tile)
  have hstacks : ∀ stack ∈ leafStacksAll Rectangle.tiled, stack.1 = Rectangle.tiles := by decide
  refine ⟨is, fs, his, ?_, hfs, dims_of_layersOf hfs, fun i hi => ?_⟩
  · simpa using congrArg List.length henvs
  · obtain ⟨stack, hstack, -, -, hholds, -⟩ := hranges is his i hi
    rw [hstacks stack hstack] at hholds
    exact (hholds fs hfs).2

end LoopNest

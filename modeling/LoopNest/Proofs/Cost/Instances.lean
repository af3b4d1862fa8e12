import LoopNest.Proofs.Cost.Layers
import LoopNest.Proofs.Nest.Derivation
import LoopNest.Proofs.Nest.Undo

namespace LoopNest

open Node Kernel Cost LoopNest.Flow

section Estimates

variable {p : Program} {roots : List Node} {stack : List Header × Leaf}

theorem stack_spec (hsound : Sound p roots) (hstack : stack ∈ leafStacksAll roots) :
    (stack.1.map Header.dim).Nodup ∧ HeadersTidy [] stack.1 := by
  obtain ⟨path, ho⟩ := hsound.occurs_of_stack hstack
  constructor
  · exact hsound.dims.sublist (dimsAll_sublist_of_stack roots hstack)
  · exact ho.headersTidy hsound.tidy

theorem exactProduct_of_accounted {instances : Nat} {hs : List Header} (ha : Accounted hs instances)
    (hdims : (hs.map Header.dim).Nodup) (ht : HeadersTidy [] hs) :
    FailsOnlyBy (.fault .overflow) (layersOf [] hs) ∧ ∀ fs, layersOf [] hs = .ok fs →
      exactProduct fs ≤ instances ∧ (exactProduct fs = instances ↔ ∀ h ∈ hs, h.TwoTiles hs) := by
  obtain ⟨hfails, hproduct⟩ := layersOf_spec .nil ha hdims ht
  obtain ⟨last, hlast⟩ := exists_valuation hdims fun x => x.upper.constant - 1
  refine ⟨hfails, fun fs hfs => ?_⟩
  have hcharge : exactProduct fs = charge hs last := by
    rw [hproduct fs hfs last hlast, exactProduct, List.map_nil, List.prod_nil, one_mul]
  rw [hcharge]
  exact ⟨ha.le last hlast, ha.eq_iff last hlast⟩

theorem charged_of_costPerNode {m : Machine} {costs : List Float} (h : m.costPerNode p roots = .ok costs)
    (hstack : stack ∈ leafStacksAll roots) :
    ∃ fs c, layersOf [] stack.1 = .ok fs ∧ costOfLeaf m p fs stack.2 = .ok c ∧ c ∈ costs := by
  obtain ⟨⟨total, costs'⟩, hnodes, h⟩ := bind_eq_ok.1 h
  cases h
  exact charged_of_nodes roots hnodes stack hstack

end Estimates

/-- On every tree that transformations lead to from a program whose iterators have constant bounds: the mean trip
counts around a leaf, for whose product the estimate charges, are there unless a number overflows. Their product is at
most the number of instances that the walk visits, and equal to it exactly if no loop is clamped to the last of more
than two tiles. -/
theorem exactProduct_le_instances {description : Description} {p : Program} (hp : description.build = .ok p)
    (hrect : p.Rectangular) {roots : List Node} (hr : Reshaped p roots) {ids : List InstanceId}
    (hids : p.walk roots = .ok ids) {stack : List Header × Leaf} (hstack : stack ∈ leafStacksAll roots) :
    FailsOnlyBy (.fault .overflow) (layersOf [] stack.1) ∧
    (∀ fs, layersOf [] stack.1 = .ok fs →
      exactProduct fs ≤ instances stack.2.computation ids ∧
      (exactProduct fs = instances stack.2.computation ids ↔ ∀ h ∈ stack.1, h.TwoTiles stack.1)) ∧
    ∀ (m : Machine) costs, m.costPerNode p roots = .ok costs →
      ∃ fs c, layersOf [] stack.1 = .ok fs ∧ costOfLeaf m p fs stack.2 = .ok c ∧ c ∈ costs := by
  have hwf := Description.wellFormed_of_build hp
  obtain ⟨hdims, htidy⟩ := stack_spec (hr.sound hwf) hstack
  have ha := accounted_of_reshaped hwf hrect hr outermost stack hstack
  rw [← Program.walk_eq_ok hids] at ha
  obtain ⟨hfails, hproduct⟩ := exactProduct_of_accounted ha hdims htidy
  exact ⟨hfails, hproduct, fun m costs hcosts => charged_of_costPerNode hcosts hstack⟩

namespace Rectangle

def tiles : List Header :=
  [⟨"i", .ofInt 0, .ofInt 2, none, {}⟩, ⟨"j0", .ofInt 0, .ofInt 2, none, {}⟩,
    ⟨"j1", .ofInt 0, .ofInt 2, some ⟨[⟨-2, "j0"⟩], 3⟩, {}⟩]

def tiled : List Node := nest tiles [.leaf ⟨0, [.var "i", ⟨[⟨2, "j0"⟩, ⟨1, "j1"⟩], 0⟩]⟩]

theorem rectangular : program.Rectangular := by
  intro c hc d hd
  obtain rfl := List.mem_singleton.1 hc
  simp only [List.mem_cons, List.not_mem_nil, or_false] at hd
  rcases hd with rfl | rfl
  · exact ⟨0, 2, rfl, rfl, by decide⟩
  · exact ⟨0, 3, rfl, rfl, by decide⟩

theorem applyTo_tile : (Transformation.tile "j" 2).applyTo program rows = .ok tiled := rfl

theorem exists_walk_tiled : ∃ ids, program.walk tiled = .ok ids ∧ instances 0 ids = 6 := ⟨_, rfl, rfl⟩

theorem exists_layers_tiles : ∃ fs, layersOf [] tiles = .ok fs := ⟨_, rfl⟩

theorem twoTiles : ∀ h ∈ tiles, h.TwoTiles tiles := by
  intro h hh c hc e he
  simp only [tiles, List.mem_cons, List.not_mem_nil, or_false] at hh
  rcases hh with rfl | rfl | rfl <;> cases hc
  have hj : e "j0" = 0 := he ⟨"j0", .ofInt 0, .ofInt 2, none, {}⟩ (by simp [tiles])
  change 3 + (-2 * e "j0" + 0) ≤ 2 * 2
  omega

end Rectangle

theorem exactProduct_le_instances_rectangle : ∃ ids fs, Rectangle.program.walk Rectangle.tiled = .ok ids ∧
    layersOf [] Rectangle.tiles = .ok fs ∧ exactProduct fs = instances 0 ids ∧ instances 0 ids = 6 := by
  have hrows : Reshaped Rectangle.program Rectangle.rows := .initial Rectangle.nesting_eq
  obtain ⟨ids, hids, hsix⟩ := Rectangle.exists_walk_tiled
  obtain ⟨fs, hfs⟩ := Rectangle.exists_layers_tiles
  have hstack : (Rectangle.tiles, (⟨0, [.var "i", ⟨[⟨2, "j0"⟩, ⟨1, "j1"⟩], 0⟩]⟩ : Leaf)) ∈
      leafStacksAll Rectangle.tiled := List.mem_cons_self
  obtain ⟨-, hproduct, -⟩ := exactProduct_le_instances Rectangle.build_eq Rectangle.rectangular
    (hrows.step _ Rectangle.applyTo_tile) hids hstack
  exact ⟨ids, fs, hids, hfs, (hproduct fs hfs).2.2 Rectangle.twoTiles, hsix⟩

namespace Strip

def description : Description where
  name := "strip"
  params := []
  buffers := [⟨"out", ["5"], .float64, .output⟩]
  computations :=
    [{ name := "c"
       iterators := [⟨"i", "0", "5"⟩]
       store := ⟨"out", ["i"]⟩
       expr := .const 1.0 }]

def program : Program where
  name := "strip"
  params := []
  buffers := [⟨"out", [5], .float64, .output⟩]
  computations := [⟨"c", [⟨"i", .ofInt 0, .ofInt 5⟩], .const 1.0, ⟨0, [.var "i"]⟩, none⟩]

def whole : List Node := [.loop ⟨"i", .ofInt 0, .ofInt 5, none, {}⟩ [.leaf ⟨0, [.var "i"]⟩]]

def tiles : List Header :=
  [⟨"i0", .ofInt 0, .ofInt 3, none, {}⟩, ⟨"i1", .ofInt 0, .ofInt 2, some ⟨[⟨-2, "i0"⟩], 5⟩, {}⟩]

def tiled : List Node := nest tiles [.leaf ⟨0, [⟨[⟨2, "i0"⟩, ⟨1, "i1"⟩], 0⟩]⟩]

def visit (i : Int) : Visit := ⟨(0, [i]), [], (0, some i.toNat), []⟩

def visits : List Visit := [visit 0, visit 1, visit 2, visit 3, visit 4]

theorem build_eq : description.build = .ok program := rfl

theorem nesting_eq : program.nesting = .ok whole := rfl

theorem initialVisits_eq : program.initialVisits = .ok visits := rfl

theorem exists_tiled : ∃ k, Kernel.ofTree program tiled = .ok k ∧ k.visits = .ok visits := ⟨_, rfl, rfl⟩

theorem rectangular : program.Rectangular := by
  intro c hc d hd
  obtain rfl := List.mem_singleton.1 hc
  obtain rfl := List.mem_singleton.1 hd
  exact ⟨0, 5, rfl, rfl, by decide⟩

theorem reachable_tiled : Nest.Reachable (Context.ofProgram program) ⟨tiled, [.tile "i" 2], none⟩ := by
  obtain ⟨k, hk, hv⟩ := exists_tiled
  have hinitial : Nest.Reachable (Context.ofProgram program) ⟨whole, [], none⟩ := .initial rfl
  have happly : (Transformation.tile "i" 2).applyTo program whole = .ok tiled := rfl
  refine hinitial.derived (Nest.derive_of_legal (n := ⟨whole, [], none⟩) happly ?_)
  exact Context.checkLegal_of_faithful (Description.wellFormed_of_build build_eq)
    (Program.fewInstances_of_visits initialVisits_eq (by decide)) initialVisits_eq (by decide) (by decide) hk hv
    (by decide)

/-- The mean of the first and the last of the trip counts two, two and one is not their mean. -/
theorem tiled_undercharged : description.build = .ok program ∧ program.Rectangular ∧
    Nest.Reachable (Context.ofProgram program) ⟨tiled, [.tile "i" 2], none⟩ ∧
    ∃ stack ∈ leafStacksAll tiled, ∃ ids fs, program.walk tiled = .ok ids ∧ layersOf [] stack.1 = .ok fs ∧
      instances stack.2.computation ids = 5 ∧ exactProduct fs = 9 / 2 := by
  refine ⟨build_eq, rectangular, reachable_tiled, _, List.mem_cons_self, _, _, rfl, rfl, rfl, ?_⟩
  norm_num [exactProduct, Layer.exactTrips, Affine.ofInt]

end Strip

end LoopNest

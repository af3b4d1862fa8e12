import LoopNest.Proofs.Cost.Restacking

namespace LoopNest

open Node

def Program.Rectangular (p : Program) : Prop :=
  ∀ c ∈ p.computations, ∀ d ∈ c.domain, ∃ lower upper,
    d.lower.constant? = some lower ∧ d.upper.constant? = some upper ∧ lower < upper

section Whole

structure Header.Whole (h : Header) : Prop where
  fixed : h.Fixed
  unclamped : h.clamp = none

theorem Header.Whole.length_values {h : Header} (hw : h.Whole) (env : Valuation) :
    ((h.values env).length : ℚ) = h.extent := by
  have hlt := hw.fixed.nonempty
  have hextent : 0 ≤ h.extent := by
    unfold extent
    omega
  have hlength : (h.values env).length = h.extent.toNat := by
    simp only [values, valuesFrom, List.length_map, List.length_range, top, hw.unclamped, hw.fixed.lower,
      hw.fixed.upper, extent]
  rw [hlength, ← Int.cast_natCast, Int.toNat_of_nonneg hextent]

theorem charge_of_whole {hs : List Header} (hw : ∀ h ∈ hs, h.Whole) (e env : Valuation) :
    charge hs e = (runs env hs).length := by
  induction hs generalizing env with
  | nil => simp [charge, runs]
  | cons h hs ih =>
    obtain ⟨hh, hw⟩ := List.forall_mem_cons.1 hw
    have hinner : ((h.values env).map fun v => (runs (Function.update env h.dim v) hs).length) =
        (h.values env).map fun _ => (runs env hs).length := by
      apply List.map_congr_left
      intro v _
      have hsame := (ih hw (Function.update env h.dim v)).symm.trans (ih hw env)
      exact_mod_cast hsame
    have hrest := ih hw env
    rw [charge] at hrest ⊢
    rw [List.map_cons, List.prod_cons, hrest, hh.fixed.mean_of_unclamped hh.unclamped, ← hh.length_values env, runs,
      List.length_flatMap, hinner, List.map_const', List.sum_replicate_nat, Nat.cast_mul]

theorem accounted_of_whole {hs : List Header} (hw : ∀ h ∈ hs, h.Whole) (env : Valuation) :
    Accounted hs (runs env hs).length := by
  have hunclamped {h : Header} (hh : h ∈ hs) {c : Affine} (hc : h.clamp = some c) : False := by
    cases (hw h hh).unclamped.symm.trans hc
  constructor
  · exact fun h hh => (hw h hh).fixed
  · exact fun h hh c hc => (hunclamped hh hc).elim
  · have hpos : 0 < charge hs env := by
      apply List.prod_pos
      intro x hx
      obtain ⟨h, hh, rfl⟩ := List.mem_map.1 hx
      have hlt := (hw h hh).fixed.nonempty
      rw [(hw h hh).fixed.mean_of_unclamped (hw h hh).unclamped, ← Int.cast_zero, Int.cast_lt]
      unfold Header.extent
      omega
    rw [charge_of_whole hw env env] at hpos
    exact_mod_cast hpos
  · exact fun e _ => (charge_of_whole hw e env).le
  · exact fun e _ => ⟨fun _ h hh c hc => (hunclamped hh hc).elim, fun _ => charge_of_whole hw e env⟩

end Whole

namespace Initial

theorem whole_of_loop {r : Renaming} {h : Header} {d : Dimension} (hloop : LoopOf r h d) {lower upper : Int}
    (hlower : d.lower.constant? = some lower) (hupper : d.upper.constant? = some upper) (hlt : lower < upper) :
    h.Whole := by
  have hlow (e : Valuation) : h.lower.value e = lower := by
    rw [Affine.value_bindVars e hloop.lower, Affine.value_of_constant? hlower]
  have hup (e : Valuation) : h.upper.value e = upper := by
    rw [Affine.value_bindVars e hloop.upper, Affine.value_of_constant? hupper]
  have hlowConstant := (Affine.value_zero h.lower).symm.trans (hlow _)
  have hupConstant := (Affine.value_zero h.upper).symm.trans (hup _)
  refine ⟨⟨fun e => ?_, fun e => ?_, ?_⟩, hloop.clamp⟩
  · rw [hlow, hlowConstant]
  · rw [hup, hupConstant]
  · rwa [hlowConstant, hupConstant]

def WholeAll (roots : List Node) : Prop := ∀ t ∈ leafStacksAll roots, ∀ h ∈ t.1, h.Whole

theorem Shares.whole {roots : List Node} {c : Computation} {path : Path} {hs : List Header}
    (h : Shares roots c path hs) (hw : WholeAll roots) : ∀ x ∈ hs, x.Whole := by
  cases h with
  | alone => exact nofun
  | behind hafter hl ho hk => exact fun x hx => hw _ ho.mem_leafStacks x (List.mem_of_mem_take hx)

theorem whole_place {s s' : State} {index : Nat} {c : Computation} {buffers : List Buffer}
    (hc : c.WellFormed buffers) (hrect : ∀ d ∈ c.domain, ∃ lower upper,
      d.lower.constant? = some lower ∧ d.upper.constant? = some upper ∧ lower < upper)
    (hw : WholeAll s.roots) (h : place s index c = .ok s') : WholeAll s'.roots := by
  obtain ⟨path, shared, fresh, n, r, hshares, -, hplaced, hloops, -⟩ := placed_of_place hc h
  intro t ht
  rcases hplaced.inserts.mem_leafStacks ht with ht | ⟨u, hu, rfl⟩
  · exact hw t ht
  · rw [hplaced.node_leafStacks, List.mem_singleton] at hu
    subst hu
    refine List.forall_mem_append.2 ⟨hshares.whole hw, fun x hx => ?_⟩
    obtain ⟨d, hd, hloop⟩ := exists_of_forall₂ hloops hx
    obtain ⟨lower, upper, hlower, hupper, hlt⟩ := hrect d (List.mem_of_mem_drop hd)
    exact whole_of_loop hloop hlower hupper hlt

theorem whole_placeAll {buffers : List Buffer} {s s' : State} {index : Nat} {cs : List Computation}
    (hcs : ∀ c ∈ cs, c.WellFormed buffers) (hrect : ∀ c ∈ cs, ∀ d ∈ c.domain, ∃ lower upper,
      d.lower.constant? = some lower ∧ d.upper.constant? = some upper ∧ lower < upper)
    (hw : WholeAll s.roots) (h : placeAll s index cs = .ok s') : WholeAll s'.roots := by
  induction cs generalizing s index with
  | nil =>
    cases h
    exact hw
  | cons c cs ih =>
    obtain ⟨hc, hcs⟩ := List.forall_mem_cons.1 hcs
    obtain ⟨hfirst, hrest⟩ := List.forall_mem_cons.1 hrect
    obtain ⟨next, hn, h⟩ := bind_eq_ok.1 h
    exact ih hcs hrest (whole_place hc hfirst hw hn) h

theorem whole_of_nesting {p : Program} (hp : p.WellFormed) (hrect : p.Rectangular) {roots : List Node}
    (h : p.nesting = .ok roots) : WholeAll roots := by
  obtain ⟨s, hs, h⟩ := bind_eq_ok.1 h
  cases h
  exact whole_placeAll hp hrect (fun t ht => absurd ht List.not_mem_nil) hs

end Initial

section Counting

variable {p : Program} {roots : List Node}

def instances (c : Nat) (points : List (Nat × List Int)) : Nat := points.countP fun q => q.1 == c

theorem computation_of_mem_pointsBelow {env : Valuation} {hs : List Header} {l : Leaf} {q : Nat × List Int}
    (hq : q ∈ pointsBelow env hs (.leaf l)) : q.1 = l.computation := by
  obtain ⟨e, -, hq⟩ := List.mem_flatMap.1 hq
  rw [List.mem_singleton.1 hq]

theorem length_pointsBelow (env : Valuation) (hs : List Header) (l : Leaf) :
    (pointsBelow env hs (.leaf l)).length = (runs env hs).length := by
  simp [pointsBelow, List.length_flatMap, points]

theorem instances_eq_length_runs (hsound : Sound p roots) {t : List Header × Leaf} (ht : t ∈ leafStacksAll roots)
    (env : Valuation) : instances t.2.computation (pointsAll env roots) = (runs env t.1).length := by
  obtain ⟨before, behind, hsplit⟩ := List.append_of_mem ht
  have hleaves := hsound.leaves
  rw [← leafStacksAll_map_snd, List.map_map, hsplit, List.map_append, List.map_cons] at hleaves
  have hother := (List.nodup_cons.1 (List.perm_middle.nodup_iff.1 hleaves)).1
  rw [← List.map_append] at hother
  have hnone {ts : List (List Header × Leaf)} (hts : ts ⊆ before ++ behind) :
      (ts.flatMap fun s => pointsBelow env s.1 (.leaf s.2)).countP (fun q => q.1 == t.2.computation) = 0 := by
    refine List.countP_eq_zero.2 fun q hq heq => hother ?_
    obtain ⟨s, hs, hq⟩ := List.mem_flatMap.1 hq
    have hsame : s.2.computation = t.2.computation := (computation_of_mem_pointsBelow hq).symm.trans (eq_of_beq heq)
    exact List.mem_map.2 ⟨s, hts hs, hsame⟩
  have hall : (pointsBelow env t.1 (.leaf t.2)).countP (fun q => q.1 == t.2.computation) = (runs env t.1).length := by
    rw [List.countP_eq_length.2 fun q hq => beq_iff_eq.2 (computation_of_mem_pointsBelow hq), length_pointsBelow]
  rw [instances, (pointsAll_perm_leafStacks roots env).countP_eq, hsplit, List.flatMap_append, List.flatMap_cons,
    List.countP_append, List.countP_append, hnone (List.subset_append_left _ _), hnone (List.subset_append_right _ _),
    hall, Nat.zero_add, Nat.add_zero]

theorem accounted_of_reshaped (hp : p.WellFormed) (hrect : p.Rectangular) (h : Reshaped p roots) (env : Valuation) :
    ∀ t ∈ leafStacksAll roots, Accounted t.1 (instances t.2.computation (pointsAll env roots)) := by
  induction h with
  | initial h =>
    intro t ht
    rw [instances_eq_length_runs (sound_of_nesting hp h).1 ht]
    exact accounted_of_whole (Initial.whole_of_nesting hp hrect h t ht) env
  | @step roots roots' t hr h ih =>
    intro s' hs'
    have hsound := hr.sound hp
    have hconserves := conserves_applyTo hsound h
    obtain ⟨s, hs, hc, hrestacks⟩ := stacksFrom_of_applyTo hsound h s' hs'
    rw [instances, (hconserves.points env).countP_eq, ← hc]
    apply (ih s hs).restack hrestacks
    · exact hsound.dims.sublist (dimsAll_sublist_of_stack roots hs)
    · exact hconserves.sound.dims.sublist (dimsAll_sublist_of_stack roots' hs')

end Counting

end LoopNest

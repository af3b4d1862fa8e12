import LoopNest.Proofs.Dataflow.Regrouping
import LoopNest.Proofs.Nest.Undo
import LoopNest.Proofs.Transform.Grouping

namespace LoopNest

open Node Kernel LoopNest.Flow

def Program.visits (p : Program) (roots : List Node) : Numbered (List Visit) := do
  let k ← Kernel.ofTree p roots
  k.visits

namespace Program

variable {p : Program} {roots roots' : List Node}

theorem visits_eq_ok {vs : List Visit} :
    p.visits roots = .ok vs ↔ ∃ k, Kernel.ofTree p roots = .ok k ∧ k.visits = .ok vs := by
  simp only [visits, bind_eq_ok, lift_eq_ok]

theorem exists_visits (hp : p.WellFormed) (h : TidyAll p [] roots)
    (hoverflow : p.visits roots ≠ .error (.fault .overflow)) : ∃ vs, p.visits roots = .ok vs := by
  have hfails : FailsOnlyBy overflowing (p.visits roots) :=
    (ofTree_failsOnly hp h).bind fun k _ => k.visits_failsOnly.lift
  cases hvisits : p.visits roots with
  | ok vs => exact ⟨vs, rfl⟩
  | error e =>
    cases hfails e hvisits
    exact absurd hvisits hoverflow

theorem visits_of_iterations {k k' : Kernel} (hk : Kernel.ofTree p roots = .ok k)
    (hk' : Kernel.ofTree p roots' = .ok k') {vs vs' : List Visit} (hv : k.visits = .ok vs)
    (hv' : k'.visits = .ok vs') (hpoints : pointsAll outermost roots' = pointsAll outermost roots) :
    vs'.map Visit.alone = vs.map Visit.alone ∧ ∀ f : Activation → Activation,
      iterationsAll outermost [] 0 [] roots' =
        (iterationsAll outermost [] 0 [] roots).map (List.map (Iteration.move f)) →
      vs' = vs.map (Visit.move f) := by
  have hids : vs'.map Visit.id = vs.map Visit.id := by
    rw [ids_of_visits hv', ids_of_visits hv, ids_of_tree hk', ids_of_tree hk, hpoints]
  have hobeys : ∀ v ∈ vs, v.Obeys p := fun v hmem => obeys_of_visits hk hv hmem
  have hobeys' : ∀ v ∈ vs', v.Obeys p := fun v hmem => obeys_of_visits hk' hv' hmem
  refine ⟨Visit.alone_eq_of_obeys hobeys' hobeys hids, fun f hf => ?_⟩
  refine Visit.eq_of_obeys hobeys' (List.forall_mem_map.2 hobeys) ?_ ?_
  · rw [hids, List.map_map]
    rfl
  · rw [iterations_of_visits hk' hv', hf, ← iterations_of_visits hk hv, List.map_map, List.map_map]
    rfl

end Program

/-- On a tree that derivations lead to, with a record of the initial tree and as far as no number overflows: tiling
or unrolling keeps the visits of the walk in their order, in the same iterations of concurrent loops but for the
names of the activations, and the derivation succeeds; parallelizing or vectorizing is refused for a conflict
between two iterations of a concurrent loop, if at all. -/
theorem strip_mining_legal {description : Description} {p : Program} (hp : description.build = .ok p)
    (hfew : p.FewInstances) {d : Dataflow} (hd : Dataflow.ofProgram p = .ok d) {n : Nest}
    (hn : n.Reachable (Context.ofProgram p)) {t : Transformation} {roots' : List Node}
    (h : t.applyTo p n.roots = .ok roots') (hoverflow : p.visits roots' ≠ .error (.fault .overflow)) :
    (∀ dim factor, t = .tile dim factor ∨ t = .unroll dim factor →
      (∃ vs f, Function.Injective f ∧ p.visits n.roots = .ok vs ∧ p.visits roots' = .ok (vs.map (Visit.move f))) ∧
      n.derive (Context.ofProgram p) t = .ok { roots := roots', applied := n.applied ++ [t] }) ∧
    ∀ dim width, t = .parallelize dim ∨ t = .vectorize dim width →
      n.derive (Context.ofProgram p) t = .ok { roots := roots', applied := n.applied ++ [t] } ∨
        ∃ dim' buffer, n.derive (Context.ofProgram p) t =
          Outcome.refuse (.illegal (.concurrentConflict dim' buffer)) := by
  have hwf := Description.wellFormed_of_build hp
  have hsound := (Nest.reshaped_of_reachable hn).sound hwf
  obtain ⟨initial, hi, hrecords⟩ := Dataflow.records_of_program hwf hfew hd
  have hlength := hfew.length_le hi
  have hobeys : ∀ v ∈ initial, v.Obeys p := fun v hv => Program.obeys_of_initialVisits hi hv
  have hsmall : d.computationOf.size ≤ 4294967296 := by
    rw [Dataflow.instances_eq hrecords]
    omega
  obtain ⟨initial', k, vs, hi', hk, hv, hfaithful⟩ :=
    Context.faithful_of_checkLegal hwf hfew (Nest.legal_of_reachable hwf hd hsmall hn)
  cases hi.symm.trans hi'
  obtain ⟨vs', hvisits'⟩ := Program.exists_visits hwf (conserves_applyTo hsound h).sound.tidy hoverflow
  obtain ⟨k', hk', hv'⟩ := Program.visits_eq_ok.1 hvisits'
  have hcheck := Context.checkLegal_of_tree hd hk'
  constructor
  · intro dim factor ht
    -- the same visits up to the names of the activations: nothing the check looks at has changed
    obtain ⟨hpoints, f, hf, hiterations⟩ := iterations_stripMining hsound h ht outermost
    obtain rfl := (Program.visits_of_iterations hk hk' hv hv' hpoints).2 f hiterations
    refine ⟨⟨vs, f, hf, Program.visits_eq_ok.2 ⟨k, hk, hv⟩, hvisits'⟩, Nest.derive_of_legal h ?_⟩
    rw [hcheck, Dataflow.check_of_visits hrecords hwf hobeys hlength hk' hv' (hfaithful.move hf)]
  · intro dim width ht
    -- the same points in the same order, so the flow is kept and only the grouping can be refused
    have hsame := (Program.visits_of_iterations hk hk' hv hv' (points_concurrent hsound h ht outermost)).1
    have hflow : Faithful p initial (vs'.map Visit.alone) := by
      rw [hsame]
      exact (faithful_iff_alone.1 hfaithful).1
    have hfails := Dataflow.check_failsOnly_conflicts hrecords hwf hobeys hlength hk' hv' hflow
    cases hc : d.check p k' with
    | ok u => exact Or.inl (Nest.derive_of_legal h (hcheck.trans hc))
    | error e =>
      obtain ⟨dim', buffer, rfl⟩ := (hfails e hc).exists_eq
      exact Or.inr ⟨dim', buffer, Nest.derive_of_illegal h (hcheck.trans hc)⟩

namespace Rectangle

def parallelRows : List Node :=
  [.loop ⟨"i", .ofInt 0, .ofInt 2, none, { parallel := true }⟩ [.loop ⟨"j", .ofInt 0, .ofInt 3, none, {}⟩ body]]

def byParallelRows : List Visit :=
  byRows.map fun v => { v with concurrent := [⟨0, "i", [], v.id.2.headD 0⟩] }

theorem fewInstances : program.FewInstances := Program.fewInstances_of_visits initialVisits_eq (by decide)

theorem exists_record : ∃ d, Dataflow.ofProgram program = .ok d :=
  Dataflow.exists_ofProgram fewInstances initialVisits_eq (by decide) (by decide)

theorem applyTo_parallelize : (Transformation.parallelize "i").applyTo program rows = .ok parallelRows := rfl

theorem exists_parallelRows :
    ∃ k, Kernel.ofTree program parallelRows = .ok k ∧ k.visits = .ok byParallelRows := ⟨_, rfl, rfl⟩

theorem checkLegal_parallelRows : (Context.ofProgram program).checkLegal parallelRows = .ok () := by
  obtain ⟨k, hk, hv⟩ := exists_parallelRows
  exact Context.checkLegal_of_faithful (Description.wellFormed_of_build build_eq) fewInstances initialVisits_eq
    (by decide) (by decide) hk hv (by decide)

theorem exists_tiled : ∃ roots' vs, (Transformation.tile "j" 2).applyTo program parallelRows = .ok roots' ∧
    program.visits roots' = .ok vs := ⟨_, _, rfl, rfl⟩

end Rectangle

theorem strip_mining_legal_rectangle :
    (∃ roots' vs f, Function.Injective f ∧ Rectangle.program.visits Rectangle.parallelRows = .ok vs ∧
      Rectangle.program.visits roots' = .ok (vs.map (Visit.move f)) ∧
      (⟨Rectangle.parallelRows, [.parallelize "i"], none⟩ : Nest).derive (Context.ofProgram Rectangle.program)
        (.tile "j" 2) = .ok ⟨roots', [.parallelize "i", .tile "j" 2], none⟩) ∧
    ((⟨Rectangle.rows, [], none⟩ : Nest).derive (Context.ofProgram Rectangle.program) (.parallelize "i") =
        .ok ⟨Rectangle.parallelRows, [.parallelize "i"], none⟩ ∨
      ∃ dim buffer, (⟨Rectangle.rows, [], none⟩ : Nest).derive (Context.ofProgram Rectangle.program)
        (.parallelize "i") = Outcome.refuse (.illegal (.concurrentConflict dim buffer))) := by
  obtain ⟨d, hd⟩ := Rectangle.exists_record
  have hinitial : Nest.Reachable (Context.ofProgram Rectangle.program) ⟨Rectangle.rows, [], none⟩ := .initial rfl
  have hparallel := hinitial.derived (Nest.derive_of_legal (n := ⟨Rectangle.rows, [], none⟩)
    Rectangle.applyTo_parallelize Rectangle.checkLegal_parallelRows)
  obtain ⟨roots', tiled, htile, htiled⟩ := Rectangle.exists_tiled
  constructor
  · obtain ⟨⟨vs, f, hf, hv, hv'⟩, hderive⟩ := (strip_mining_legal Rectangle.build_eq Rectangle.fewInstances hd
      hparallel htile (by rw [htiled]; nofun)).1 "j" 2 (Or.inl rfl)
    exact ⟨roots', vs, f, hf, hv, hv', hderive⟩
  · obtain ⟨k, hk, hv⟩ := Rectangle.exists_parallelRows
    exact (strip_mining_legal Rectangle.build_eq Rectangle.fewInstances hd hinitial
      Rectangle.applyTo_parallelize (by rw [Program.visits_eq_ok.2 ⟨k, hk, hv⟩]; nofun)).2 "i" 0 (Or.inl rfl)

end LoopNest

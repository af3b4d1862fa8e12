import LoopNest.Proofs.Dataflow.Refusal
import LoopNest.Proofs.Kernel.Plain
import LoopNest.Proofs.Program.Domain

namespace LoopNest

open LoopNest.Flow Kernel

theorem Flow.faithful_self {p : Program} {vs : List Visit} (hdistinct : (vs.map Visit.id).Nodup)
    (hin : ∀ v ∈ vs, ∀ a ∈ v.locations, Inside p a) (hsequential : ∀ v ∈ vs, v.concurrent = []) :
    Faithful p vs vs where
  once x := by
    split
    · next hx => exact List.count_eq_one_of_mem hdistinct hx
    · next hx => exact List.count_eq_zero_of_not_mem hx
  inside := hin
  producers before v after hsplit before' v' after' hsplit' hid := by
    have hnumber : number vs v.id = before.length := by
      rw [hsplit] at hdistinct ⊢
      exact number_of_split (not_mem_of_nodup_map hdistinct)
    have hnumber' : number vs v'.id = before'.length := by
      rw [hsplit'] at hdistinct ⊢
      exact number_of_split (not_mem_of_nodup_map hdistinct)
    obtain ⟨rfl, htail⟩ := List.append_inj (hsplit.symm.trans hsplit') (by rw [← hnumber, ← hnumber', hid])
    rw [(List.cons.inj htail).1]
  final _ := rfl
  separate v hv w _ hapart := by
    obtain ⟨a, ha, -⟩ := hapart
    rw [hsequential v hv] at ha
    cases ha

section Sequential

variable {p : Program}

mutual

theorem concurrent_of_node {scope : Numbering.Scope} {next next' : Nat} (n : LoopNest.Node) {k : Kernel.Node}
    (hk : Numbering.node p scope next n = .ok (k, next')) (hn : n.Untagged) (env : Env)
    (concurrent : List Iteration) : ∀ i ∈ instancesNode env concurrent k, i.concurrent = concurrent := by
  cases n with
  | leaf l =>
    obtain ⟨st, -, rfl, -⟩ := Numbering.node_leaf_eq_ok hk
    exact List.forall_mem_singleton.2 rfl
  | loop h body =>
    obtain ⟨r, ks, hr, hbody, rfl⟩ := Numbering.node_loop_eq_ok hk
    obtain ⟨htags, -, hn⟩ := hn
    have hinside (v : Int) : r.inside env concurrent v = concurrent := by
      simp [Range.inside, hr.concurrent, Header.isConcurrent, htags]
    intro i hi
    obtain ⟨v, -, hi⟩ := List.mem_flatMap.1 hi
    rw [hinside] at hi
    exact concurrent_of_nodes body hbody hn (v :: env) concurrent i hi

theorem concurrent_of_nodes {scope : Numbering.Scope} {next next' : Nat} (ns : List LoopNest.Node)
    {ks : List Kernel.Node} (hk : Numbering.nodes p scope next ns = .ok (ks, next'))
    (hns : LoopNest.Node.UntaggedAll ns) (env : Env) (concurrent : List Iteration) :
    ∀ i ∈ instancesNodes env concurrent ks, i.concurrent = concurrent := by
  cases ns with
  | nil =>
    cases hk
    exact nofun
  | cons n ns =>
    obtain ⟨k, mid, rest, hn, hrest, rfl⟩ := Numbering.nodes_cons_eq_ok hk
    exact List.forall_mem_append.2 ⟨concurrent_of_node n hn hns.1 env concurrent,
      concurrent_of_nodes ns hrest hns.2 env concurrent⟩

end

theorem concurrent_of_tree {roots : List LoopNest.Node} {k : Kernel} (hk : ofTree p roots = .ok k)
    (huntagged : LoopNest.Node.UntaggedAll roots) : ∀ i ∈ k.instances, i.concurrent = [] := by
  obtain ⟨⟨body, loops⟩, hbody, hk⟩ := bind_eq_ok.1 hk
  cases hk
  exact concurrent_of_nodes roots hbody huntagged [] []

theorem concurrent_of_visits {roots : List LoopNest.Node} {k : Kernel} (hk : ofTree p roots = .ok k)
    (huntagged : LoopNest.Node.UntaggedAll roots) {vs : List Visit} (hv : k.visits = .ok vs) :
    ∀ v ∈ vs, v.concurrent = [] := by
  obtain ⟨t, ht, hv⟩ := bind_eq_ok.1 hv
  obtain rfl := trace_eq ht
  intro v hmem
  obtain ⟨i, hi, hiv⟩ := Instance.traverses_visits.exists_of_mem hv hmem
  obtain ⟨point, reads, store, -, -, -, rfl⟩ := Instance.visit_eq_ok.1 hiv
  exact concurrent_of_tree hk huntagged i hi

end Sequential

def Failure.LeavesBuffer (p : Program) : Failure Illegality → Prop
  | .fault f => f = .overflow
  | .refused e => ∃ c ∈ p.computations, ∃ q, c.InDomain q ∧ ∃ a ∈ c.accesses,
      ¬ a.InShape p (pointEnv c.iterators q) ∧ e = .outOfBounds c.name (p.bufferName a.buffer)

variable {p : Program}

theorem Means.exists_access {P : Fault → Prop} {c : Computation} {i : Instance} {id : InstanceId}
    (h : Means P p c i id) {place : Place} (hplace : place ∈ i.statement.store :: i.statement.reads) {l : Location}
    (hl : place.location i.env = .ok l) : ∃ a ∈ c.accesses, a.locationAt p (pointEnv c.iterators id.2) = l := by
  rcases List.mem_cons.1 hplace with rfl | hplace
  · exact ⟨c.store, List.mem_cons_self, Except.ok.inj (h.store.eq_ok hl)⟩
  · obtain ⟨l', hl', hread⟩ := exists_of_forall₂ h.reads hplace
    obtain ⟨a, ha, rfl⟩ := List.mem_map.1 hl'
    exact ⟨a, List.mem_cons_of_mem _ ha, Except.ok.inj (hread.eq_ok hl)⟩

theorem Failure.OutOfBounds.leavesBuffer (hp : p.WellFormed) {P : Fault → Prop} {c : Computation} {i : Instance}
    {id : InstanceId} (hmeans : Means P p c i id) (hin : c.InDomain id.2) :
    ∀ e : Failure Illegality, e.OutOfBounds p i (i.statement.store :: i.statement.reads) → e.LeavesBuffer p
  | .fault _, h => h
  | .refused _, ⟨place, hplace, hl, h⟩ => by
    have hc := List.mem_of_getElem? hmeans.computation
    obtain ⟨a, ha, hlocation⟩ := hmeans.exists_access hplace hl
    refine ⟨c, hc, id.2, hin, a, ha, ?_, ?_⟩
    · rw [Access.inShape_iff ((hp c hc).accesses a ha), hlocation]
      exact nofun
    · have hbuffer := (a.locationAt_buffer p (pointEnv c.iterators id.2)).symm.trans (congrArg Prod.fst hlocation)
      rw [h, hbuffer, hmeans.same, Program.computationName, hmeans.computation]

section Initial

variable {s : Initial.State} {k : Kernel} (hp : p.WellFormed)
  (ha : Initial.Arranged p s p.computations.length) (hk : ofTree p s.roots = .ok k)
include hp ha hk

theorem ofKernel_leavesBuffer : FailsOnly (Failure.LeavesBuffer p) (Dataflow.ofKernel p k) := by
  have horder := inOrder_of_arranged hp ha outermost
  have hdistinct : (k.instances.map Instance.id).Nodup := by
    rw [ids_of_tree hk]
    exact Initial.nodup_points ha.grown.sound ha.grown.plain outermost
  refine walk_failsOnly _ rfl ?_
  intro before i after d hsplit hbefore e he
  have hi : i ∈ k.instances := by
    rw [hsplit]
    exact List.mem_append_right _ List.mem_cons_self
  obtain ⟨id, hid, c, hmeans⟩ := exists_of_forall₂ (means_of_tree hk (evaluatesAll k.body [])) hi
  have hin := (horder.complete id.1 c hmeans.computation id.2).1 (mem_pointsOf.2 hid)
  have hnew := Dataflow.contains_of_distinct hdistinct hsplit hbefore
  exact Failure.OutOfBounds.leavesBuffer hp hmeans hin e (Dataflow.visit_failsOnly hnew e he)

theorem inBounds_of_visits {initial : List Visit} (hv : k.visits = .ok initial)
    (hin : ∀ v ∈ initial, ∀ a ∈ v.locations, Inside p a) : p.InBounds := by
  intro c hc q hq a hacc
  obtain ⟨i, hi⟩ := List.mem_iff_getElem?.1 hc
  have hmem := mem_pointsOf.1 (((inOrder_of_arranged hp ha outermost).complete i c hi q).2 hq)
  rw [← ids_of_tree hk, ← ids_of_visits hv] at hmem
  obtain ⟨v, hvmem, hid⟩ := List.mem_map.1 hmem
  obtain ⟨c', hc', hreads, hstore⟩ := obeys_of_visits hk hv hvmem
  rw [hid] at hc' hreads hstore
  cases hi.symm.trans hc'
  have hlocation : a.locationAt p (pointEnv c.iterators q) ∈ v.locations := by
    rw [Visit.locations, hreads, hstore]
    exact List.mem_map_of_mem (f := Access.locationAt p (pointEnv c.iterators q)) hacc
  obtain ⟨-, n, -, hn, -⟩ := hin v hvmem _ hlocation
  rw [Access.inShape_iff ((hp c hc).accesses a hacc), hn]
  rfl

theorem checkLegal_of_record (hn : p.nesting = .ok s.roots) (hfew : p.FewInstances) {d : Dataflow}
    (hd : Dataflow.ofKernel p k = .ok d) :
    p.InBounds ∧ (Context.ofProgram p).checkLegal s.roots = .ok () := by
  obtain ⟨initial, hv, hrecords⟩ := Dataflow.records_of_kernel hp hk hd
  have hi := Program.initialVisits_eq_ok.2 ⟨s.roots, k, hn, hk, hv⟩
  have hrecords := hrecords (hfew.length_le hi)
  have hfaithful := faithful_self hrecords.distinct hrecords.inside (concurrent_of_visits hk ha.grown.untagged hv)
  exact ⟨inBounds_of_visits hp ha hk hv hrecords.inside,
    Context.checkLegal_of_faithful hp hfew hi hrecords.distinct hrecords.inside hk hv hfaithful⟩

end Initial

theorem Context.checkLegal_of_error {roots : List Node} {k : Kernel} (hn : p.nesting = .ok roots)
    (hk : ofTree p roots = .ok k) {e : Failure Illegality} (he : Dataflow.ofKernel p k = .error e)
    (roots' : List Node) : (ofProgram p).checkLegal roots' = .error e := by
  have hrecord : Dataflow.ofProgram p = .error e := by
    rw [Dataflow.ofProgram, hn, lift_ok, ok_bind, hk, Outcome.mapRefusal_ok, ok_bind, he]
  rw [checkLegal, (ofProgram p).recorded_get]
  change Dataflow.ofProgram p >>= _ = _
  rw [hrecord]
  rfl

/-- The initial tree of a described program is lowered, and as far as no number overflows it passes the check
exactly when all accesses stay inside their buffers. It is refused for one that does not, and for nothing else. -/
theorem checkLegal_initial {description : Description} (hp : description.build = .ok p) :
    ∃ roots k, p.nesting = .ok roots ∧ ofTree p roots = .ok k ∧
      (p.FewInstances → (Context.ofProgram p).checkLegal roots ≠ .error (.fault .overflow) →
        ((Context.ofProgram p).checkLegal roots = .ok () ↔ p.InBounds) ∧
        (¬ p.InBounds → ∃ c ∈ p.computations, ∃ q, c.InDomain q ∧ ∃ a ∈ c.accesses,
          ¬ a.InShape p (pointEnv c.iterators q) ∧
          (Context.ofProgram p).checkLegal roots = Outcome.refuse (.outOfBounds c.name (p.bufferName a.buffer)))) := by
  have hwf := Description.wellFormed_of_build hp
  obtain ⟨s, hn, ha⟩ := exists_nesting hp
  obtain ⟨k, hk⟩ := exists_ofTree_of_arranged hp ha
  refine ⟨s.roots, k, hn, hk, fun hfew hoverflow => ?_⟩
  cases hd : Dataflow.ofKernel p k with
  | ok d =>
    obtain ⟨hin, hlegal⟩ := checkLegal_of_record hwf ha hk hn hfew hd
    exact ⟨iff_of_true hlegal hin, fun hout => absurd hin hout⟩
  | error e =>
    have hcheck := Context.checkLegal_of_error hn hk hd s.roots
    have hleaves := ofKernel_leavesBuffer hwf ha hk e hd
    cases e with
    | fault f =>
      cases hleaves
      exact absurd hcheck hoverflow
    | refused e =>
      obtain ⟨c, hc, q, hq, a, hacc, hout, rfl⟩ := hleaves
      refine ⟨iff_of_false (by rw [hcheck]; nofun) fun hin => hout (hin c hc q hq a hacc), fun _ => ?_⟩
      exact ⟨c, hc, q, hq, a, hacc, hout, hcheck⟩

namespace Beyond

def description : Description where
  name := "beyond"
  params := []
  buffers := [⟨"out", ["1"], .float64, .output⟩]
  computations :=
    [{ name := "c"
       iterators := [⟨"i", "0", "1"⟩]
       store := ⟨"out", ["i + 1"]⟩
       expr := .const 1.0 }]

def program : Program where
  name := "beyond"
  params := []
  buffers := [⟨"out", [1], .float64, .output⟩]
  computations := [⟨"c", [⟨"i", .ofInt 0, .ofInt 1⟩], .const 1.0, ⟨0, [⟨[⟨1, "i"⟩], 1⟩]⟩, none⟩]

def initial : List Node := [.loop ⟨"i", .ofInt 0, .ofInt 1, none, {}⟩ [.leaf ⟨0, [.var "i"]⟩]]

def statement : Statement where
  computation := 0
  iterators := [⟨[(0, 1)], 0⟩]
  reads := []
  value := .const 1.0
  store := ⟨0, [(⟨[(0, 1)], 1⟩, 1, 1)]⟩

def kernel : Kernel := ⟨[.loop ⟨0, "i", ⟨[], 0⟩, ⟨[], 1⟩, none, false⟩ [.leaf statement]], 1⟩

theorem build_eq : description.build = .ok program := rfl

theorem nesting_eq : program.nesting = .ok initial := rfl

theorem ofTree_eq : ofTree program initial = .ok kernel := rfl

theorem trace_eq : kernel.trace = .ok [⟨statement, [0], []⟩] := rfl

theorem fewInstances : program.FewInstances := by
  intro roots k t hn hk ht
  cases hn.symm.trans nesting_eq
  cases hk.symm.trans ofTree_eq
  cases ht.symm.trans trace_eq
  decide

theorem ofKernel_eq : Dataflow.ofKernel program kernel = Outcome.refuse (.outOfBounds "c" "out") := by
  have hvisit : Dataflow.visit program ⟨statement, [0], []⟩ (Dataflow.empty program) =
      Outcome.refuse (.outOfBounds "c" "out") := by
    have hpoint : Instance.point ⟨statement, [0], []⟩ = .ok [0] := rfl
    simp only [Dataflow.visit, hpoint, lift_ok, ok_bind, Dataflow.empty, Std.HashMap.contains_empty,
      Bool.false_eq_true, if_false]
    rfl
  rw [Dataflow.ofKernel, walk_of_trace _ trace_eq, visitAll_cons, hvisit]
  rfl

end Beyond

theorem ProducerConsumer.checkLegal_separate :
    (Context.ofProgram ProducerConsumer.program).checkLegal ProducerConsumer.separate = .ok () := by
  obtain ⟨roots, k, hn, hk, hv⟩ := Program.initialVisits_eq_ok.1 ProducerConsumer.initialVisits_eq
  cases hn.symm.trans ProducerConsumer.nesting_eq
  exact Context.checkLegal_of_faithful (Description.wellFormed_of_build ProducerConsumer.build_eq)
    ProducerConsumer.fewInstances ProducerConsumer.initialVisits_eq (by decide) (by decide) hk hv (by decide)

theorem Beyond.checkLegal_eq : (Context.ofProgram Beyond.program).checkLegal Beyond.initial =
    Outcome.refuse (.outOfBounds "c" "out") :=
  Context.checkLegal_of_error Beyond.nesting_eq Beyond.ofTree_eq Beyond.ofKernel_eq Beyond.initial

theorem checkLegal_initial_cases : ProducerConsumer.program.InBounds ∧ ¬ Beyond.program.InBounds ∧
    ∃ c ∈ Beyond.program.computations, ∃ q, c.InDomain q ∧ ∃ a ∈ c.accesses,
      ¬ a.InShape Beyond.program (pointEnv c.iterators q) ∧
      (Context.ofProgram Beyond.program).checkLegal Beyond.initial =
        Outcome.refuse (.outOfBounds c.name (Beyond.program.bufferName a.buffer)) := by
  constructor
  · obtain ⟨roots, k, hn, hk, h⟩ := checkLegal_initial ProducerConsumer.build_eq
    cases hn.symm.trans ProducerConsumer.nesting_eq
    have hlegal := ProducerConsumer.checkLegal_separate
    exact (h ProducerConsumer.fewInstances (by rw [hlegal]; nofun)).1.1 hlegal
  · obtain ⟨roots, k, hn, hk, h⟩ := checkLegal_initial Beyond.build_eq
    cases hn.symm.trans Beyond.nesting_eq
    obtain ⟨hiff, hrefused⟩ := h Beyond.fewInstances (by rw [Beyond.checkLegal_eq]; nofun)
    have hout : ¬ Beyond.program.InBounds := fun hin => by
      cases Beyond.checkLegal_eq.symm.trans (hiff.2 hin)
    exact ⟨hout, hrefused hout⟩

end LoopNest

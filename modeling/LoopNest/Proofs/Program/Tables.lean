import LoopNest.Proofs.Dataflow.Check
import LoopNest.Proofs.Execution.Refinement
import LoopNest.Proofs.Nest.Faults
import LoopNest.Proofs.Nest.StripMining
import LoopNest.Proofs.Program.Addressing

/-!
The tables of a walk. Writers, summaries of conflicts and contents are kept by buffer and offset, and no visit
asks for a cell that its table does not have: a test of this in front of every visit would change nothing.
-/

namespace LoopNest

open Kernel

section Places

variable {p : Program} {roots : List LoopNest.Node} {k : Kernel}

theorem Numbering.exists_place {b : Numbering.Bindings} {a : Access} {names : List String} {place : Place}
    (ha : a.WellFormed p.buffers names) (h : b.place p a = .ok place) :
    ∃ buffer forms, p.buffers[place.buffer]? = some buffer ∧ forms.length = buffer.shape.length ∧
      place = buffer.place place.buffer forms := by
  obtain ⟨buffer, hbuffer, hrank⟩ := ha.buffer
  obtain ⟨forms, hforms, h⟩ := bind_eq_ok.1 h
  simp only [hbuffer] at h
  cases h
  exact ⟨buffer, forms, hbuffer, (b.traverses_forms.length_eq hforms).trans hrank, rfl⟩

theorem Kernel.exists_place (hp : p.WellFormed) (hk : ofTree p roots = .ok k) {st : Statement}
    (hst : st ∈ statementsOfAll k.body) {place : Place} (hplace : place ∈ st.store :: st.reads) :
    ∃ b forms, p.buffers[place.buffer]? = some b ∧ forms.length = b.shape.length ∧
      place = b.place place.buffer forms := by
  obtain ⟨⟨body, loops⟩, hbody, hk⟩ := bind_eq_ok.1 hk
  cases hk
  obtain ⟨scope, l, -, hl⟩ := Numbering.leaf_of_nodes roots hbody hst
  obtain ⟨c, hc⟩ := Numbering.fromLeaf_of_statement hl
  have hwf := hp c (List.mem_of_getElem? hc.computation)
  rcases List.mem_cons.1 hplace with rfl | hplace
  · exact Numbering.exists_place hwf.store hc.store
  · obtain ⟨a, ha, hread⟩ := exists_of_forall₂ (Numbering.locations_expr hc.value).flip hplace
    exact Numbering.exists_place (hwf.expr.loads a ha) hread

def Instance.cells (i : Instance) : List (Nat × Nat) :=
  (i.statement.store :: i.statement.reads).filterMap fun place =>
    match place.offset i.env with
    | .ok (some n) => some (place.buffer, n)
    | _ => none

theorem Instance.mem_cells {i : Instance} {cell : Nat × Nat} :
    cell ∈ i.cells ↔ ∃ place ∈ i.statement.store :: i.statement.reads,
      place.buffer = cell.1 ∧ place.offset i.env = .ok (some cell.2) := by
  rw [cells, List.mem_filterMap]
  refine exists_congr fun place => and_congr_right fun _ => ?_
  split
  · next n hn => simp [hn, Prod.ext_iff]
  · next hnone => exact iff_of_false nofun fun h => hnone cell.2 h.2

theorem Kernel.inside_of_cell (hp : p.WellFormed) (hk : ofTree p roots = .ok k) {i : Instance}
    (hi : i.statement ∈ statementsOfAll k.body) {cell : Nat × Nat} (hcell : cell ∈ i.cells) :
    ∃ b, p.buffers[cell.1]? = some b ∧ cell.2 < b.volume := by
  obtain ⟨place, hplace, hbuffer, hoffset⟩ := Instance.mem_cells.1 hcell
  obtain ⟨b, forms, hb, hlength, heq⟩ := exists_place hp hk hi hplace
  rw [heq] at hoffset
  exact ⟨b, hbuffer ▸ hb, Buffer.offset_lt_volume hlength hoffset⟩

end Places

section Guards

variable {ε σ : Type}

def guarded (test : σ → Instance → Bool) (e : Failure ε) (visit : Instance → σ → Outcome ε σ) (i : Instance)
    (s : σ) : Outcome ε σ :=
  if test s i then visit i s else .error e

def Coincide (Inv : σ → Prop) (Q : Failure ε → Prop) (step step' : σ → Outcome ε σ) : Prop :=
  ∀ s, Inv s → step' s = step s ∧ FailsOnly Q (step s) ∧ ∀ s', step s = .ok s' → Inv s'

namespace Coincide

variable {Inv : σ → Prop} {Q : Failure ε → Prop}

theorem ok : Coincide Inv Q (fun s => .ok s) fun s => .ok s :=
  fun s hs => ⟨rfl, .ok s, fun _ h => Except.ok.inj h ▸ hs⟩

theorem bind {f f' g g' : σ → Outcome ε σ} (hf : Coincide Inv Q f f') (hg : Coincide Inv Q g g') :
    Coincide Inv Q (fun s => f s >>= g) fun s => f' s >>= g' := by
  intro s hs
  obtain ⟨hsame, hfails, hnext⟩ := hf s hs
  refine ⟨?_, hfails.bind fun s' hs' => (hg s' (hnext s' hs')).2.1, fun s'' h => ?_⟩
  · change (f' s >>= g') = (f s >>= g)
    cases hstep : f s with
    | error e => rw [hsame, hstep]; rfl
    | ok s' => rw [hsame, hstep, ok_bind, ok_bind, (hg s' (hnext s' hstep)).1]
  · obtain ⟨s', hs', h⟩ := bind_eq_ok.1 h
    exact (hg s' (hnext s' hs')).2.2 s'' h

theorem forEach {step step' : Int → σ → Outcome ε σ} (h : ∀ v, Coincide Inv Q (step v) (step' v)) (count : Nat)
    (v : Int) : Coincide Inv Q (Kernel.forEach step count v) (Kernel.forEach step' count v) := by
  induction count generalizing v with
  | zero => exact ok
  | succ count ih => exact (h v).bind (ih (v + 1))

theorem guarded {test : σ → Instance → Bool} {visit : Instance → σ → Outcome ε σ} {i : Instance} (e : Failure ε)
    (htest : ∀ s, Inv s → test s i = true) (h : Coincide Inv Q (visit i) (visit i)) :
    Coincide Inv Q (visit i) (LoopNest.guarded test e visit i) := by
  intro s hs
  refine ⟨?_, (h s hs).2⟩
  rw [LoopNest.guarded, if_pos (htest s hs)]

variable {visit visit' : Instance → σ → Outcome ε σ}

mutual

theorem walkNode (hoverflow : Q (.fault .overflow)) {low high : Nat} (n : Kernel.Node) (hn : InRange low high n)
    {concurrent : List Iteration} (hconcurrent : ∀ a ∈ concurrent, a.loop < low)
    (h : ∀ i, i.statement ∈ statementsOf n → (∀ a ∈ i.concurrent, a.loop < high) →
      Coincide Inv Q (visit i) (visit' i)) (env : Env) :
    Coincide Inv Q (Kernel.walkNode visit env concurrent n) (Kernel.walkNode visit' env concurrent n) := by
  cases n with
  | leaf st =>
    obtain rfl : low = high := hn
    exact h ⟨st, env, concurrent⟩ List.mem_cons_self hconcurrent
  | loop r body =>
    obtain ⟨hnumber, hbody⟩ := hn
    have hinside (v : Int) : ∀ a ∈ r.inside env concurrent v, a.loop < low + 1 := by
      intro a ha
      rcases mem_inside ha with ha | rfl
      · exact Nat.lt_succ_of_lt (hconcurrent a ha)
      · exact Nat.lt_succ_of_le (Nat.le_of_eq hnumber)
    intro s hs
    rw [Kernel.walkNode, Kernel.walkNode]
    cases hbounds : r.bounds env with
    | error f =>
      obtain rfl := Range.bounds_failsOnly (fun f _ => KernelForm.eval_failsOnly f) f hbounds
      exact ⟨rfl, FailsOnly.error hoverflow, nofun⟩
    | ok bounds =>
      have hround (v : Int) := walkNodes hoverflow body hbody (hinside v) h (v :: env)
      exact forEach hround (bounds.2 - bounds.1).toNat bounds.1 s hs

theorem walkNodes (hoverflow : Q (.fault .overflow)) {low high : Nat} (ns : List Kernel.Node) (hns : InRangeAll low high ns)
    {concurrent : List Iteration} (hconcurrent : ∀ a ∈ concurrent, a.loop < low)
    (h : ∀ i, i.statement ∈ statementsOfAll ns → (∀ a ∈ i.concurrent, a.loop < high) →
      Coincide Inv Q (visit i) (visit' i)) (env : Env) :
    Coincide Inv Q (Kernel.walkNodes visit env concurrent ns) (Kernel.walkNodes visit' env concurrent ns) := by
  cases ns with
  | nil => exact ok
  | cons n ns =>
    obtain ⟨mid, hn, hns⟩ := hns
    have hle := InRange.le n hn
    have hle' := InRangeAll.le ns hns
    refine (walkNode hoverflow n hn hconcurrent (fun i hi ha => ?_) env).bind
      (walkNodes hoverflow ns hns (fun a ha => Nat.lt_of_lt_of_le (hconcurrent a ha) hle) (fun i hi ha => ?_) env)
    · exact h i (List.mem_append_left _ hi) fun a hmem => Nat.lt_of_lt_of_le (ha a hmem) hle'
    · exact h i (List.mem_append_right _ hi) ha

end

theorem walk (hoverflow : Q (.fault .overflow)) {p : Program} {roots : List LoopNest.Node} {k : Kernel}
    (hk : ofTree p roots = .ok k)
    (h : ∀ i, i.statement ∈ statementsOfAll k.body → (∀ a ∈ i.concurrent, a.loop < k.loops) →
      Coincide Inv Q (visit i) (visit' i)) : Coincide Inv Q (k.walk visit) (k.walk visit') :=
  walkNodes hoverflow k.body (inRangeAll_of_ofTree hk) (List.forall_mem_nil _) h []

end Coincide

end Guards

section Tests

def hasCells {α : Type} (tables : Array (Array α)) (i : Instance) : Bool :=
  i.cells.all fun cell => decide (cell.2 < (tables.getD cell.1 #[]).size)

def Conflicts.hasCells (p : Program) (c : Conflicts) (i : Instance) : Bool :=
  i.cells.all fun cell => i.concurrent.all fun a =>
    decide (c.table a.loop cell.1 < c.tables.size) &&
      decide (cell.2 < (filled (c.tables.getD (c.table a.loop cell.1) #[]) (Dataflow.volumeOf p cell.1)).size)

def fullBuffersHaveCells {V : Type} (p : Program) (contents : Contents V) (i : Instance) : Bool :=
  i.cells.all fun cell =>
    decide ((contents.getD cell.1 #[]).size = Dataflow.volumeOf p cell.1 → cell.2 < (contents.getD cell.1 #[]).size)

variable {p : Program} (hp : p.WellFormed) {roots : List LoopNest.Node} {k : Kernel} (hk : ofTree p roots = .ok k)
  {i : Instance} (hi : i.statement ∈ statementsOfAll k.body)
include hp hk hi

theorem hasCells_of_shaped {α : Type} {tables : Array (Array α)} (h : p.Shaped tables) : hasCells tables i = true := by
  refine List.all_eq_true.2 fun cell hcell => decide_eq_true ?_
  obtain ⟨b, hb, hlt⟩ := inside_of_cell hp hk hi hcell
  rwa [h.entries cell.1 b hb]

theorem hasCells_of_conflicts {loops : Nat} {c : Conflicts} (h : c.Shaped p loops)
    (hloops : ∀ a ∈ i.concurrent, a.loop < loops) : c.hasCells p i = true := by
  refine List.all_eq_true.2 fun cell hcell => List.all_eq_true.2 fun a ha => ?_
  obtain ⟨b, hb, hlt⟩ := inside_of_cell hp hk hi hcell
  have hvolume : Dataflow.volumeOf p cell.1 = b.volume := by simp only [Dataflow.volumeOf, hb]
  rw [Bool.and_eq_true, decide_eq_true_eq, decide_eq_true_eq, hvolume, Conflicts.size_filled (h.cells a.loop cell.1 b hb)]
  exact ⟨Conflicts.table_lt h (hloops a ha) (List.getElem?_eq_some_iff.1 hb).1, hlt⟩

theorem fullBuffersHaveCells_of_kernel {V : Type} (contents : Contents V) :
    fullBuffersHaveCells p contents i = true := by
  refine List.all_eq_true.2 fun cell hcell => decide_eq_true fun hfull => ?_
  obtain ⟨b, hb, hlt⟩ := inside_of_cell hp hk hi hcell
  rw [hfull]
  simpa only [Dataflow.volumeOf, hb] using hlt

end Tests

section Shapes

variable {p : Program}

theorem Dataflow.shaped_visit {i : Instance} {d d' : Dataflow} (hd : p.Shaped d.writers)
    (h : visit p i d = .ok d') : p.Shaped d'.writers := by
  obtain ⟨v, -, -, -, rfl⟩ := visit_eq_ok.1 h
  exact Writers.shaped_write hd _ _ _

theorem Conflicts.shaped_record {loops b offset : Nat} {isWrite : Bool} {concurrent : List Iteration} {c c' : Conflicts}
    {buffer : Buffer} (hb : p.buffers[b]? = some buffer) (hloops : ∀ a ∈ concurrent, a.loop < loops)
    (hc : c.Shaped p loops) (h : record p b (Dataflow.volumeOf p b) offset isWrite c concurrent = .ok c') :
    c'.Shaped p loops := by
  have hvolume : Dataflow.volumeOf p b = buffer.volume := by simp only [Dataflow.volumeOf, hb]
  rw [hvolume] at h
  induction concurrent generalizing c with
  | nil =>
    cases h
    exact hc
  | cons a rest ih =>
    obtain ⟨ha, hloops⟩ := List.forall_mem_cons.1 hloops
    rw [record_cons] at h
    split at h
    · cases h
    · exact ih hloops (shaped_put hc ha hb _ _) h

structure Dataflow.Progress.Shaped (p : Program) (loops : Nat) (s : Dataflow.Progress) : Prop where
  writers : p.Shaped s.writers
  conflicts : s.conflicts.Shaped p loops

namespace Dataflow

variable {loops : Nat} {i : Instance} (hloops : ∀ a ∈ i.concurrent, a.loop < loops)
include hloops

theorem shaped_checkReads {places : List Place} (hplaces : ∀ place ∈ places, ∃ b, p.buffers[place.buffer]? = some b)
    {sources : List (Option Nat)} {s s' : Progress} (hs : s.Shaped p loops)
    (h : checkReads p i places sources s = .ok s') : s'.Shaped p loops := by
  induction places generalizing sources s with
  | nil =>
    cases h
    exact hs
  | cons place places ih =>
    cases sources with
    | nil =>
      cases h
      exact hs
    | cons source sources =>
      obtain ⟨⟨b, hb⟩, hplaces⟩ := List.forall_mem_cons.1 hplaces
      obtain ⟨n, c, -, -, hc, h⟩ := exists_of_checkReads_cons h
      exact ih hplaces (s := ⟨s.executed, s.writers, c⟩)
        ⟨hs.writers, Conflicts.shaped_record hb hloops hs.conflicts hc⟩ h

theorem shaped_checkVisit {d : Dataflow}
    (hplaces : ∀ place ∈ i.statement.store :: i.statement.reads, ∃ b, p.buffers[place.buffer]? = some b)
    {s s' : Progress} (hs : s.Shaped p loops) (h : d.checkVisit p i s = .ok s') : s'.Shaped p loops := by
  obtain ⟨⟨b, hb⟩, hreads⟩ := List.forall_mem_cons.1 hplaces
  obtain ⟨point, -, h⟩ := bind_eq_ok.1 h
  split at h
  · cases h
  · split at h
    · cases h
    · obtain ⟨next, hnext, h⟩ := bind_eq_ok.1 h
      obtain ⟨offset, -, h⟩ := bind_eq_ok.1 h
      obtain ⟨c, hc, h⟩ := bind_eq_ok.1 h
      cases h
      have hs' := shaped_checkReads hloops hreads (s := ⟨s.executed.setIfInBounds _ true, s.writers, s.conflicts⟩)
        ⟨hs.writers, hs.conflicts⟩ hnext
      exact ⟨Writers.shaped_write hs'.writers _ _ _, Conflicts.shaped_record hb hloops hs'.conflicts hc⟩

end Dataflow

end Shapes

namespace Interpreter

variable {V : Type} {A : Arithmetic V} {p : Program} {contents : Contents V} {i : Instance}

theorem offsetIn_failsExpectedly (i : Instance) (place : Place) : FailsExpectedly (offsetIn p i place) := by
  refine (FailsExpectedly.lift (Place.offset_failsOnly fun f _ => KernelForm.eval_failsOnly f)).bind fun offset _ => ?_
  cases offset with
  | none => exact FailsExpectedly.refuse _
  | some n => exact .ok _

variable (hcells : ∀ cell ∈ i.cells, ∃ b, p.buffers[cell.1]? = some b ∧ cell.2 < b.volume)
include hcells

theorem inside_of_offset {place : Place} (hplace : place ∈ i.statement.store :: i.statement.reads) {n : Nat}
    (hn : offsetIn p i place = .ok n) : Flow.Inside p (place.buffer, some n) := by
  obtain ⟨o, ho, heq⟩ := Place.location_eq_ok.1 (offsetIn_eq_ok.1 hn)
  cases heq
  obtain ⟨b, hb, hlt⟩ := hcells (place.buffer, n) (Instance.mem_cells.2 ⟨place, hplace, rfl, ho⟩)
  exact ⟨b, n, hb, rfl, hlt⟩

theorem loadAll_failsExpectedly (hc : p.Shaped contents) {places : List Place} (hplaces : places ⊆ i.statement.reads)
    (A : Arithmetic V) (loaded : Array V) : FailsExpectedly (loadAll p contents i places loaded) := by
  induction places generalizing loaded with
  | nil => exact .ok _
  | cons place places ih =>
    obtain ⟨hplace, hplaces⟩ := List.cons_subset.1 hplaces
    refine (offsetIn_failsExpectedly i place).bind fun n hn => ?_
    rw [readAt_of_inside (A := A) hc (inside_of_offset hcells (List.mem_cons_of_mem _ hplace) hn)]
    exact ih hplaces _

theorem coincide_visit (A : Arithmetic V) :
    Coincide (fun contents : Contents V => p.Shaped contents) Failure.Expected (visit A p i) (visit A p i) := by
  intro contents hc
  refine ⟨rfl, ?_, fun contents' h => ?_⟩
  · refine (loadAll_failsExpectedly hcells hc (List.Subset.refl _) A #[]).bind fun loaded _ => ?_
    have hvalue : FailsOnlyBy .overflow (i.statement.value.eval A loaded i.env) :=
      KernelExpr.eval_failsOnly fun f _ => KernelForm.eval_failsOnly f
    refine (FailsExpectedly.lift hvalue).bind fun v _ => (offsetIn_failsExpectedly i _).bind fun n hn => ?_
    rw [writeAt_of_inside hc (inside_of_offset hcells List.mem_cons_self hn)]
    exact .ok _
  · obtain ⟨loaded, -, h⟩ := bind_eq_ok.1 h
    obtain ⟨v, -, h⟩ := bind_eq_ok.1 h
    obtain ⟨n, hn, h⟩ := bind_eq_ok.1 h
    rw [writeAt_of_inside hc (inside_of_offset hcells List.mem_cons_self hn)] at h
    cases h
    exact hc.setCell _ _ _

end Interpreter

section Walks

variable {p : Program} (hp : p.WellFormed) {roots : List LoopNest.Node} {k : Kernel} (hk : ofTree p roots = .ok k)
include hp hk

theorem walk_writers (e : Failure Illegality) :
    k.walk (guarded (fun d i => hasCells d.writers i) e (Dataflow.visit p)) (Dataflow.empty p) =
      Dataflow.ofKernel p k := by
  have hvisit (i : Instance) : Coincide (fun d : Dataflow => p.Shaped d.writers) Failure.Expected
      (Dataflow.visit p i) (Dataflow.visit p i) := fun d hd =>
    ⟨rfl, Dataflow.visit_failsExpectedly i d, fun _ h => Dataflow.shaped_visit hd h⟩
  have hwalk : Coincide (fun d : Dataflow => p.Shaped d.writers) Failure.Expected (k.walk (Dataflow.visit p))
      (k.walk (guarded (fun d i => hasCells d.writers i) e (Dataflow.visit p))) :=
    Coincide.walk (Eq.refl Fault.overflow) hk fun i hi _ =>
      (hvisit i).guarded e fun d hd => hasCells_of_shaped hp hk hi hd
  exact (hwalk (Dataflow.empty p) (Writers.shaped_empty p)).1

theorem walk_conflicts (d : Dataflow) (executed : Array Bool) (e : Failure Illegality) :
    k.walk (guarded (fun s i => hasCells s.writers i && s.conflicts.hasCells p i) e (d.checkVisit p))
        ⟨executed, Writers.empty p, Conflicts.empty k.loops p.buffers.length⟩ =
      k.walk (d.checkVisit p) ⟨executed, Writers.empty p, Conflicts.empty k.loops p.buffers.length⟩ := by
  have hbuffers {i : Instance} (hi : i.statement ∈ statementsOfAll k.body) :
      ∀ place ∈ i.statement.store :: i.statement.reads, ∃ b, p.buffers[place.buffer]? = some b := by
    intro place hplace
    obtain ⟨b, -, hb, -⟩ := exists_place hp hk hi hplace
    exact ⟨b, hb⟩
  have hvisit {i : Instance} (hi : i.statement ∈ statementsOfAll k.body)
      (hloops : ∀ a ∈ i.concurrent, a.loop < k.loops) : Coincide (Dataflow.Progress.Shaped p k.loops)
        Failure.Expected (d.checkVisit p i) (d.checkVisit p i) := fun s hs =>
    ⟨rfl, Dataflow.checkVisit_failsExpectedly d i s, fun _ h => Dataflow.shaped_checkVisit hloops (hbuffers hi) hs h⟩
  have hwalk : Coincide (Dataflow.Progress.Shaped p k.loops) Failure.Expected (k.walk (d.checkVisit p))
      (k.walk (guarded (fun s i => hasCells s.writers i && s.conflicts.hasCells p i) e (d.checkVisit p))) := by
    refine Coincide.walk (Eq.refl Fault.overflow) hk fun i hi hloops => (hvisit hi hloops).guarded e fun s hs => ?_
    rw [Bool.and_eq_true]
    exact ⟨hasCells_of_shaped hp hk hi hs.writers, hasCells_of_conflicts hp hk hi hs.conflicts hloops⟩
  exact (hwalk _ ⟨Writers.shaped_empty p, Conflicts.shaped_empty p k.loops⟩).1

variable {V : Type} (A : Arithmetic V)

theorem walk_contents (contents : Contents V) (e : Failure ExecutionError) :
    k.walk (guarded (fullBuffersHaveCells p) e (Interpreter.visit A p)) contents =
      k.walk (Interpreter.visit A p) contents := by
  have hvisit (i : Instance) : Coincide (fun _ => True) (fun _ => True) (Interpreter.visit A p i)
      (Interpreter.visit A p i) := fun _ _ => ⟨rfl, fun _ _ => trivial, fun _ _ => trivial⟩
  have hwalk : Coincide (fun _ => True) (fun _ => True) (k.walk (Interpreter.visit A p))
      (k.walk (guarded (fullBuffersHaveCells p) e (Interpreter.visit A p))) :=
    Coincide.walk trivial hk fun i hi _ => (hvisit i).guarded e fun c _ => fullBuffersHaveCells_of_kernel hp hk hi c
  exact (hwalk contents trivial).1

theorem run_failsExpectedly {inputs : Inputs V} (hinputs : inputs.validate p = .ok ()) :
    FailsExpectedly (Interpreter.run A p k inputs) := by
  obtain ⟨values, hvalues, hshaped⟩ := Interpreter.exists_initialContents (A := A) hinputs
  have hwalk : Coincide (fun contents : Contents V => p.Shaped contents) Failure.Expected (k.walk (Interpreter.visit A p))
      (k.walk (Interpreter.visit A p)) :=
    Coincide.walk (Eq.refl Fault.overflow) hk fun i hi _ =>
      Interpreter.coincide_visit (fun _ hcell => inside_of_cell hp hk hi hcell) A
  rw [Interpreter.run, hvalues]
  exact (hwalk _ hshaped).2.1

end Walks

structure Kernel.StaysInTables (p : Program) (k : Kernel) : Prop where
  places : ∀ st ∈ statementsOfAll k.body, ∀ place ∈ st.store :: st.reads, ∃ b forms,
    p.buffers[place.buffer]? = some b ∧ forms.length = b.shape.length ∧ place = b.place place.buffer forms
  writers : ∀ e, k.walk (guarded (fun d i => hasCells d.writers i) e (Dataflow.visit p)) (Dataflow.empty p) =
    Dataflow.ofKernel p k
  conflicts : ∀ (d : Dataflow) executed e,
    k.walk (guarded (fun s i => hasCells s.writers i && s.conflicts.hasCells p i) e (d.checkVisit p))
        ⟨executed, Writers.empty p, Conflicts.empty k.loops p.buffers.length⟩ =
      k.walk (d.checkVisit p) ⟨executed, Writers.empty p, Conflicts.empty k.loops p.buffers.length⟩
  contents {V : Type} : ∀ (A : Arithmetic V) contents e,
    k.walk (guarded (fullBuffersHaveCells p) e (Interpreter.visit A p)) contents =
      k.walk (Interpreter.visit A p) contents
  run {V : Type} : ∀ (A : Arithmetic V) (inputs : Inputs V), inputs.validate p = .ok () →
    Interpreter.run A p k inputs ≠ .error (.fault .indexOutOfRange)

theorem Kernel.staysInTables {p : Program} (hp : p.WellFormed) {roots : List LoopNest.Node} {k : Kernel}
    (hk : ofTree p roots = .ok k) : k.StaysInTables p where
  places _ hst _ hplace := exists_place hp hk hst hplace
  writers := walk_writers hp hk
  conflicts := walk_conflicts hp hk
  contents := walk_contents hp hk
  run A _ hinputs hrun := by cases run_failsExpectedly hp hk A hinputs _ hrun

/-- Every buffer of a described program is addressed exactly, and no walk of a kernel of the program asks a table for
a cell that it does not have. -/
theorem addressing_exact {d : Description} {p : Program} (hp : d.build = .ok p) :
    (∀ b ∈ p.buffers, b.Addressable) ∧ ∀ roots k, ofTree p roots = .ok k → k.StaysInTables p :=
  ⟨fun b hb => (Description.sized_of_build hp b hb).addressable,
    fun _ _ hk => staysInTables (Description.wellFormed_of_build hp) hk⟩

theorem addressing_exact_rectangle : ∃ b ∈ Rectangle.program.buffers, b.Addressable ∧ b.volume = 6 ∧
    b.offsetAt [1, 2] = some 5 ∧ b.offsetAt [1, 3] = none ∧
    ∃ k, ofTree Rectangle.program Rectangle.parallelRows = .ok k ∧ k.StaysInTables Rectangle.program := by
  obtain ⟨haddressable, htables⟩ := addressing_exact Rectangle.build_eq
  obtain ⟨k, hk, -⟩ := Rectangle.exists_parallelRows
  exact ⟨_, List.mem_cons_self, haddressable _ List.mem_cons_self, rfl, rfl, rfl, k, hk, htables _ k hk⟩

end LoopNest

import LoopNest.Kernel.Numbering
import LoopNest.Kernel.Walk
import Std.Data.HashMap

/-!
Legality: a tree is legal when its walk runs every recorded instance once and nothing else, every read sees
the instance it saw on record, every buffer ends with the writers on record, and no two iterations of a
concurrent loop conflict.
-/

namespace LoopNest

inductive Illegality where
  | outsideDomain (computation : String)
  | duplicated (computation : String)
  | dropped (computation : String) (missing : Nat)
  | dependenceViolated (consumer buffer : String)
  | outputChanged (buffer : String)
  | concurrentConflict (dim buffer : String)
  | outOfBounds (computation buffer : String)
  | numbering (e : NumberingError)
  deriving DecidableEq

def Illegality.message : Illegality → String
  | outsideDomain c => "`" ++ c ++ "` executes a point outside its iteration domain"
  | duplicated c => "`" ++ c ++ "` executes a point more than once"
  | dropped c missing => toString missing ++ " instance(s) of `" ++ c ++ "` no longer execute"
  | dependenceViolated consumer buffer =>
    "`" ++ consumer ++ "` no longer reads the value of `" ++ buffer ++ "` it depends on"
  | outputChanged buffer => "the final contents of `" ++ buffer ++ "` change"
  | concurrentConflict dim buffer =>
    "iterations of concurrent loop `" ++ dim ++ "` conflict on `" ++ buffer ++ "`"
  | outOfBounds c buffer => "`" ++ c ++ "` accesses `" ++ buffer ++ "` out of bounds"
  | numbering e => e.message

abbrev Legal (α : Type) : Type := Outcome Illegality α

abbrev Writers : Type := Array (Array (Option Nat))

def instanceNumber (n : Nat) : Nat := n % 4294967296

/-- The word that stands for no writer. -/
def noWriter : Nat := 4294967295

namespace Writers

def empty (p : Program) : Writers :=
  (p.buffers.map fun b => Array.replicate b.volume none).toArray

def last (w : Writers) (buffer offset : Nat) : Option Nat := (w.getD buffer #[]).getD offset none

def write (w : Writers) (buffer offset : Nat) (id : Nat) : Writers :=
  -- an instance with the number of no writer leaves no trace
  w.modify buffer fun cells => cells.setIfInBounds offset (if id = noWriter then none else some id)

end Writers

structure Dataflow where
  ids : Std.HashMap (Nat × List Int) Nat
  computationOf : Array Nat
  sources : Array (List (Option Nat))
  writers : Writers

namespace Dataflow

def offsetIn (p : Program) (i : Instance) (place : Place) : Legal Nat := do
  match ← place.offset i.env with
  | some n => return n
  | none =>
    Outcome.refuse
      (.outOfBounds (p.computationName i.statement.computation) (p.bufferName place.buffer))

def sourcesOf (p : Program) (w : Writers) (i : Instance) : List Place → Legal (List (Option Nat))
  | [] => .ok []
  | place :: rest => do
    let offset ← offsetIn p i place
    let more ← sourcesOf p w i rest
    return w.last place.buffer offset :: more

def visit (p : Program) (i : Instance) (d : Dataflow) : Legal Dataflow := do
  let point ← i.point
  let c := i.statement.computation
  if d.ids.contains (c, point) then Outcome.refuse (.duplicated (p.computationName c))
  else
    let id := instanceNumber d.computationOf.size
    let sources ← sourcesOf p d.writers i i.statement.reads
    let offset ← offsetIn p i i.statement.store
    -- taken apart, so that the arrays are updated in place
    let ⟨ids, computationOf, allSources, writers⟩ := d
    return { ids := ids.insert (c, point) id
             computationOf := computationOf.push c
             sources := allSources.push sources
             writers := writers.write i.statement.store.buffer offset id }

def empty (p : Program) : Dataflow :=
  { ids := ∅, computationOf := #[], sources := #[], writers := Writers.empty p }

def ofKernel (p : Program) (k : Kernel) : Legal Dataflow := k.walk (visit p) (empty p)

def instances (d : Dataflow) : Nat := d.computationOf.size

end Dataflow

structure CellSummary where
  around : Env
  writer : Option Int := none
  reader : Option Int := none
  manyReaders : Bool := false

namespace CellSummary

def otherThan (v : Int) : Option Int → Bool
  | none => false
  | some w => w != v

/-- The use of a cell in the activation at hand; a summary of an earlier activation counts for nothing. -/
def current (around : Env) : Option CellSummary → CellSummary
  | some u => if u.around = around then u else { around }
  | none => { around }

def read (u : CellSummary) (v : Int) : CellSummary :=
  match u.reader with
  | none => { u with reader := some v }
  | some r => if r != v then { u with manyReaders := true } else u

def readConflicts (u : CellSummary) (v : Int) : Bool := otherThan v u.writer

def write (u : CellSummary) (v : Int) : CellSummary := { u with writer := some v }

def writeConflicts (u : CellSummary) (v : Int) : Bool :=
  otherThan v u.writer || otherThan v u.reader || (u.reader.isSome && u.manyReaders)

end CellSummary

structure Conflicts where
  buffers : Nat
  tables : Array (Array (Option CellSummary))

namespace Conflicts

def empty (loops buffers : Nat) : Conflicts :=
  { buffers, tables := Array.replicate (loops * buffers) #[] }

def table (c : Conflicts) (loop buffer : Nat) : Nat := loop * c.buffers + buffer

def use (c : Conflicts) (i : Iteration) (buffer offset : Nat) : CellSummary :=
  CellSummary.current i.around ((c.tables.getD (c.table i.loop buffer) #[]).getD offset none)

def put (c : Conflicts) (i : Iteration) (buffer volume offset : Nat) (u : CellSummary) : Conflicts :=
  let t := c.table i.loop buffer
  { c with tables := c.tables.modify t fun cells =>
      let cells := if cells.isEmpty then Array.replicate volume none else cells
      cells.setIfInBounds offset (some u) }

def record (p : Program) (buffer volume offset : Nat) (isWrite : Bool) :
    Conflicts → List Iteration → Legal Conflicts
  | c, [] => .ok c
  | c, i :: rest =>
    let u := c.use i buffer offset
    if (if isWrite then u.writeConflicts i.value else u.readConflicts i.value) then
      Outcome.refuse (.concurrentConflict i.dim (p.bufferName buffer))
    else
      let u := if isWrite then u.write i.value else u.read i.value
      record p buffer volume offset isWrite (c.put i buffer volume offset u) rest

end Conflicts

namespace Dataflow

structure Progress where
  executed : Array Bool
  writers : Writers
  conflicts : Conflicts

def volumeOf (p : Program) (buffer : Nat) : Nat :=
  match p.buffers[buffer]? with
  | some b => b.volume
  | none => 0

/-- A read is checked against its recorded source before it is held against concurrent writes. -/
def checkReads (p : Program) (i : Instance) :
    List Place → List (Option Nat) → Progress → Legal Progress
  | place :: places, source :: sources, s => do
    let offset ← offsetIn p i place
    if s.writers.last place.buffer offset ≠ source then
      Outcome.refuse (.dependenceViolated (p.computationName i.statement.computation)
        (p.bufferName place.buffer))
    else
      let ⟨executed, writers, conflicts⟩ := s
      let conflicts ← conflicts.record p place.buffer (volumeOf p place.buffer) offset false i.concurrent
      checkReads p i places sources ⟨executed, writers, conflicts⟩
  | _, _, s => .ok s

def checkVisit (p : Program) (d : Dataflow) (i : Instance) (s : Progress) : Legal Progress := do
  let c := i.statement.computation
  let point ← i.point
  match d.ids[(c, point)]? with
  | none => Outcome.refuse (.outsideDomain (p.computationName c))
  | some id =>
    if s.executed.getD id false then Outcome.refuse (.duplicated (p.computationName c))
    else
      let ⟨executed, writers, conflicts⟩ := s
      -- marked before anything it accesses is checked
      let executed := executed.setIfInBounds id true
      let s ← checkReads p i i.statement.reads (d.sources.getD id []) ⟨executed, writers, conflicts⟩
      let store := i.statement.store
      let offset ← offsetIn p i store
      let ⟨executed, writers, conflicts⟩ := s
      let conflicts ← conflicts.record p store.buffer (volumeOf p store.buffer) offset true i.concurrent
      return ⟨executed, writers.write store.buffer offset id, conflicts⟩

def missing (d : Dataflow) (executed : Array Bool) : List Nat :=
  (executed.toList.zip d.computationOf.toList).filterMap fun (e, c) => if e then none else some c

def firstDifference (expected actual : Writers) : Option Nat :=
  position? (fun w => w.1 != w.2) (expected.toList.zip actual.toList)

def check (p : Program) (d : Dataflow) (k : Kernel) : Legal Unit := do
  let start : Progress :=
    { executed := Array.replicate d.instances false
      writers := Writers.empty p
      conflicts := Conflicts.empty k.loops p.buffers.length }
  let s ← k.walk (d.checkVisit p) start
  -- work that is lost comes before changed contents
  match d.missing s.executed with
  | c :: rest =>
    Outcome.refuse (.dropped (p.computationName c) (1 + rest.count c))
  | [] =>
    match firstDifference d.writers s.writers with
    | some b => Outcome.refuse (.outputChanged (p.bufferName b))
    | none => return ()

end Dataflow

end LoopNest

import LoopNest.Execution.Inputs
import LoopNest.Kernel.Numbering
import LoopNest.Kernel.Walk

namespace LoopNest

inductive ExecutionError where
  | missingInput (buffer : String)
  | outOfBounds (computation buffer : String)
  | numbering (e : NumberingError)
  deriving DecidableEq

abbrev Executed (α : Type) : Type := Outcome ExecutionError α

abbrev Contents (V : Type) : Type := Array (Array V)

namespace Interpreter

variable {V : Type}

def initialContents (A : Arithmetic V) (i : Inputs V) : List Buffer → Executed (List (Array V))
  | [] => .ok []
  | b :: bs => do
    let values ←
      if b.kind = .input then Outcome.require (i.get? b.name) (.missingInput b.name)
      else .ok (Array.replicate b.volume A.zero)
    let rest ← initialContents A i bs
    return values :: rest

def offsetIn (p : Program) (i : Instance) (place : Place) : Executed Nat := do
  match ← place.offset i.env with
  | some n => return n
  | none =>
    Outcome.refuse
      (.outOfBounds (p.computationName i.statement.computation) (p.bufferName place.buffer))

def readAt (contents : Contents V) (buffer offset : Nat) : Checked V :=
  match contents[buffer]? with
  | some values =>
    match values[offset]? with
    | some v => .ok v
    | none => .error .indexOutOfRange
  | none => .error .indexOutOfRange

def writeAt (contents : Contents V) (buffer offset : Nat) (v : V) : Checked (Contents V) :=
  if h : buffer < contents.size then
    if offset < contents[buffer].size then
      .ok (contents.modify buffer fun values => values.setIfInBounds offset v)
    else .error .indexOutOfRange
  else .error .indexOutOfRange

def loadAll (p : Program) (c : Contents V) (i : Instance) :
    List Place → Array V → Executed (Array V)
  | [], loaded => .ok loaded
  | place :: rest, loaded => do
    let offset ← offsetIn p i place
    let v ← readAt c place.buffer offset
    loadAll p c i rest (loaded.push v)

def dtypeOf (p : Program) (buffer : Nat) : ElementType :=
  match p.buffers[buffer]? with
  | some b => b.dtype
  | none => .float64

def visit (A : Arithmetic V) (p : Program) (i : Instance) (c : Contents V) :
    Executed (Contents V) := do
  let st := i.statement
  let loaded ← loadAll p c i st.reads #[]
  let v ← st.value.eval A loaded i.env
  let offset ← offsetIn p i st.store
  writeAt c st.store.buffer offset (A.round (dtypeOf p st.store.buffer) v)

def run (A : Arithmetic V) (p : Program) (k : Kernel) (i : Inputs V) : Executed (Contents V) := do
  let contents ← initialContents A i p.buffers
  k.walk (visit A p) contents.toArray

def runTree (A : Arithmetic V) (p : Program) (roots : List Node) (i : Inputs V) :
    Executed (Contents V) := do
  let k ← (Kernel.ofTree p roots).mapRefusal .numbering
  run A p k i

def results (p : Program) (c : Contents V) : List (String × Array V) :=
  (p.buffers.zip c.toList).filterMap fun (b, values) =>
    if b.kind = .input then none else some (b.name, values)

def execute (A : Arithmetic V) (p : Program) (roots : List Node) (i : Inputs V) :
    Executed (List (String × Array V)) := do
  let c ← runTree A p roots i
  return results p c

end Interpreter

end LoopNest

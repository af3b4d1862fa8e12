import LoopNest.Program.Basic
import LoopNest.Text.Name
import LoopNest.Tree.Path

namespace LoopNest

namespace Initial

abbrev Renaming : Type := List (String × String)

def Renaming.apply (r : Renaming) (name : String) : String :=
  match r.find? fun p => p.1 == name with
  | some p => p.2
  | none => name

def freshNames : List String → List Dimension → Renaming
  | _, [] => []
  | taken, d :: ds =>
    let name := Name.fresh d.name taken
    (d.name, name) :: freshNames (name :: taken) ds

def wrap (r : Renaming) (inner : Node) : List Dimension → Checked Node
  | [] => .ok inner
  | d :: ds => do
    let body ← wrap r inner ds
    let lower ← d.lower.bindVars fun a => .var (r.apply a)
    let upper ← d.upper.bindVars fun a => .var (r.apply a)
    return .loop { dim := r.apply d.name, lower, upper } [body]

def sharedLoops (roots : List Node) (c : Computation) : Path × List String :=
  match c.after with
  | none => ([], [])
  | some (other, level) =>
    match Node.leafPath? roots other with
    | none => ([], [])
    | some path =>
      -- no more loops than the computation has iterators
      let names := ((Node.above roots path).map fun l => l.1.dim).take (min (level + 1) c.depth)
      (path.take names.length, names)

structure State where
  roots : List Node := []
  taken : List String := []

def place (s : State) (index : Nat) (c : Computation) : Checked State := do
  let (path, names) := sharedLoops s.roots c
  let fresh := freshNames s.taken (c.domain.drop names.length)
  let r : Renaming := (c.iterators.zip names) ++ fresh
  let leaf : Leaf := ⟨index, c.iterators.map fun i => .var (r.apply i)⟩
  let node ← wrap r (.leaf leaf) (c.domain.drop names.length)
  return { roots := Node.modifyChildren (· ++ [node]) path s.roots
           taken := fresh.map Prod.snd ++ s.taken }

def placeAll : State → Nat → List Computation → Checked State
  | s, _, [] => .ok s
  | s, i, c :: cs => do
    let s ← place s i c
    placeAll s (i + 1) cs

end Initial

def Program.nesting (p : Program) : Checked (List Node) := do
  let s ← Initial.placeAll {} 0 p.computations
  return s.roots

end LoopNest

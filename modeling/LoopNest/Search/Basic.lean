import LoopNest.Evaluation.Basic
import LoopNest.Nest.Candidates
import Std.Data.HashSet

namespace LoopNest

/-- The most nests to score counts the initial one. A time budget is spent at once when it is zero and
never otherwise: a search itself has no clock. -/
structure SearchParameters where
  maxDepth : Nat := 6
  maxExplored : Nat := 2000
  timeBudget : Option Nat := none
  tolerance : Float := 0.01
  patience : Nat := 2
  beamWidth : Nat := 4
  sampleSize : Nat := 16
  population : Nat := 8
  seed : Nat := 0

inductive SearchError where
  | initialNotEvaluable (e : EvaluationError)
  deriving DecidableEq

def SearchError.message : SearchError → String
  | initialNotEvaluable e => "the initial tree cannot be evaluated: " ++ e.message

/-- The place of a float in the total order of floats: by sign, then by magnitude, not-a-number outermost. There is
only one not-a-number here, above infinity: a cost that is not a number has no sign and no payload to order it by. -/
def totalOrder (x : Float) : Int :=
  let bits := x.toBits.toNat
  if bits < 1 <<< 63 then bits else -(bits - (1 <<< 63) : Nat) - 1

namespace Nest

def costOrInfinity (n : Nest) : Float := n.cost.getD (1.0 / 0.0)

def compare (a b : Nest) : Ordering :=
  (Ord.compare (totalOrder a.costOrInfinity) (totalOrder b.costOrInfinity)).then
    (Ord.compare a.depth b.depth)

def sorted (ns : List Nest) : List Nest := ns.mergeSort fun a b => (compare a b).isLE

def least? : List Nest → Option Nest
  | [] => none
  | n :: ns => some (ns.foldl (fun m x => if (compare x m).isLT then x else m) n)

end Nest

/-- `new` is better than `old` by more than the tolerated part of `old`. -/
def improvesOn (new old tolerance : Float) : Bool := new < old - tolerance * old.abs

namespace Search

structure State where
  explored : Nat := 0
  discarded : Nat := 0
  best : Option Nest := none
  history : Array Float := #[]
  seen : Std.HashSet String := ∅

namespace State

def reset (_ : State) : State := {}

def bestCost? (s : State) : Option Float := s.best.bind Nest.cost

def isSpent (s : State) (cfg : SearchParameters) : Bool :=
  cfg.maxExplored ≤ s.explored || cfg.timeBudget == some 0

def consider (s : State) (n : Nest) : State :=
  match s.best with
  | some b => if (Nest.compare n b).isLT then { s with best := some n } else s
  | none => { s with best := some n }

def recordRound (s : State) : State :=
  match s.best with
  | some b => { s with history := s.history.push b.costOrInfinity }
  | none => s

end State

def scoreInitial (c : Context) (earlier : State) (initial : Nest) (e : Evaluator) :
    Outcome SearchError (State × Nest) := do
  let s := earlier.reset
  let n ← match initial.cost with
    | some _ => .ok initial
    | none => ((e.evaluate initial).mapRefusal .initialNotEvaluable).map fun x =>
        { initial with cost := some x }
  let key ← n.structureText c
  return ({ s with explored := s.explored + 1, best := some n, history := s.history.push n.costOrInfinity
                   seen := s.seen.insert key }, n)

def visit (c : Context) (s : State) (n : Nest) : Checked (State × Bool) := do
  let key ← n.structureText c
  if s.seen.contains key then return (s, false)
  else return ({ s with seen := s.seen.insert key }, true)

def visitAll (c : Context) : State → List Nest → Checked (State × List Nest)
  | s, [] => .ok (s, [])
  | s, n :: ns => do
    let (s, isNew) ← visit c s n
    let (s, rest) ← visitAll c s ns
    return (s, if isNew then n :: rest else rest)

def scoreEach (e : Evaluator) : State → List Nest → Checked (State × List Nest)
  | s, [] => .ok (s, [])
  | s, n :: ns => do
    -- what is refused counts, too
    let s := { s with explored := s.explored + 1 }
    match e.evaluate n with
    | .error (.fault f) => .error f
    | .error (.refused _) => scoreEach e { s with discarded := s.discarded + 1 } ns
    | .ok x =>
      let n := { n with cost := some x }
      let (s, rest) ← scoreEach e (s.consider n) ns
      return (s, n :: rest)

def score (cfg : SearchParameters) (e : Evaluator) (s : State) (ns : List Nest) :
    Checked (State × List Nest) := do
  let (s, scored) ← scoreEach e s (ns.take (cfg.maxExplored - s.explored))
  return (s.recordRound, scored)

def scoreNeighbors (c : Context) (cfg : SearchParameters) (e : Evaluator) (s : State) (n : Nest) :
    Checked (State × List Nest) := do
  if cfg.maxDepth ≤ n.depth || s.isSpent cfg then return (s, [])
  else
    let neighbors ← n.neighbors c
    let (s, fresh) ← visitAll c s neighbors
    score cfg e s fresh

end Search

end LoopNest

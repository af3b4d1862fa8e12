import LoopNest.Search.Basic
import LoopNest.Search.Evolution

namespace LoopNest

namespace Search

mutual

def descend (c : Context) (cfg : SearchParameters) (e : Evaluator) : Nat → State → Nest → Checked State
  | 0, s, _ => .ok s
  | remaining + 1, s, n => do
    if s.isSpent cfg then return s
    else
      let (s, children) ← scoreNeighbors c cfg e s n
      descendAll c cfg e remaining s children

def descendAll (c : Context) (cfg : SearchParameters) (e : Evaluator) :
    Nat → State → List Nest → Checked State
  | _, s, [] => .ok s
  | remaining, s, n :: ns => do
    let s ← descend c cfg e remaining s n
    descendAll c cfg e remaining s ns

end

def depthFirst (c : Context) (cfg : SearchParameters) (e : Evaluator) (earlier : State) (initial : Nest) :
    Outcome SearchError State := do
  let (s, n) ← scoreInitial c earlier initial e
  descend c cfg e (cfg.maxDepth - n.depth) s n

def scoreNeighborsOfAll (c : Context) (cfg : SearchParameters) (e : Evaluator) :
    State → List Nest → Checked (State × List Nest)
  | s, [] => .ok (s, [])
  | s, n :: ns => do
    let (s, own) ← scoreNeighbors c cfg e s n
    let (s, rest) ← scoreNeighborsOfAll c cfg e s ns
    return (s, own ++ rest)

def beamLevels (c : Context) (cfg : SearchParameters) (e : Evaluator) :
    Nat → State → List Nest → Float → Nat → Checked State
  | 0, s, _, _, _ => .ok s
  | levels + 1, s, beam, bestCost, plateau => do
    let (s, candidates) ← scoreNeighborsOfAll c cfg e s beam
    -- the nests that were expanded do not compete with what came of them
    match (Nest.sorted candidates).take (max cfg.beamWidth 1) with
    | [] => return s
    | n :: ns =>
      let levelCost := n.costOrInfinity
      if improvesOn levelCost bestCost cfg.tolerance then
        beamLevels c cfg e levels s (n :: ns) levelCost 0
      else if max cfg.patience 1 ≤ plateau + 1 then return s
      else beamLevels c cfg e levels s (n :: ns) bestCost (plateau + 1)

def beam (c : Context) (cfg : SearchParameters) (e : Evaluator) (earlier : State) (initial : Nest) :
    Outcome SearchError State := do
  let (s, n) ← scoreInitial c earlier initial e
  beamLevels c cfg e cfg.maxDepth s [n] n.costOrInfinity 0

def climb (c : Context) (cfg : SearchParameters) (e : Evaluator) : Nat → State → Nest → Checked State
  | 0, s, _ => .ok s
  | remaining + 1, s, current => do
    if s.isSpent cfg then return s
    else
      let (s, neighbors) ← scoreNeighbors c cfg e s current
      match Nest.least? neighbors with
      | none => return s
      | some next =>
        if next.costOrInfinity ≥ current.costOrInfinity then return s
        else climb c cfg e remaining s next

def hillClimbing (c : Context) (cfg : SearchParameters) (e : Evaluator) (earlier : State) (initial : Nest) :
    Outcome SearchError State := do
  let (s, n) ← scoreInitial c earlier initial e
  climb c cfg e (cfg.maxDepth - n.depth) s n

end Search

inductive SearchMethod where
  | exhaustive
  | beam
  | greedy
  | randomized
  deriving DecidableEq

namespace SearchMethod

def name : SearchMethod → String
  | exhaustive => "exhaustive"
  | beam => "beam"
  | greedy => "greedy"
  | randomized => "randomized"

def search (m : SearchMethod) (c : Context) (cfg : SearchParameters) (initial : Nest) (e : Evaluator)
    (draws : Search.Draws := Search.seeded cfg.seed) (earlier : Search.State := {}) :
    Outcome SearchError Search.State :=
  match m with
  | exhaustive => Search.depthFirst c cfg e earlier initial
  | beam => Search.beam c cfg e earlier initial
  | greedy => Search.hillClimbing c cfg e earlier initial
  | randomized => Search.evolution c cfg e draws earlier initial

end SearchMethod

end LoopNest

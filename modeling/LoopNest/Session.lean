import LoopNest.Nest.Table
import LoopNest.Search.Method

namespace LoopNest

structure SearchSummary where
  method : SearchMethod
  evaluator : String
  explored : Nat
  discarded : Nat
  bestEvaluation : Float
  baselineTime : Float
  bestSchedule : Schedule

structure BestRun where
  nest : Nest
  printed : String
  executionTime : Float
  speedup : Float

inductive SessionError where
  | baselineFailed (e : EvaluationError)
  | search (e : SearchError)
  | noSearchPerformed
  | bestScheduleFailed (e : EvaluationError)
  deriving DecidableEq

def SessionError.message : SessionError → String
  | baselineFailed e => "cannot measure the initial tree: " ++ e.message
  | search e => e.message
  | noSearchPerformed => "no schedule has been found yet"
  | bestScheduleFailed e => "cannot measure the best tree: " ++ e.message

/-- Every search of the session draws its random numbers anew. `searched` is the state of the search that began last,
whether or not it got beyond its beginning. -/
structure Session where
  context : Context
  method : SearchMethod
  config : SearchParameters
  draws : Search.Draws := Search.seeded config.seed
  style : TableStyle := .full
  baseline : Option Float := none
  report : Option SearchSummary := none
  searched : Search.State := {}

namespace Session

abbrev Answer (α : Type) : Type := Session × Outcome SessionError α

def measureBaseline (s : Session) (executor : Evaluator) : Answer Float :=
  match s.baseline with
  | some x => (s, .ok x)
  | none =>
    let measured : Outcome SessionError Float := do
      let n ← Nest.initial s.context
      (executor.evaluate n).mapRefusal .baselineFailed
    match measured with
    | .ok x => ({ s with baseline := some x }, .ok x)
    | .error e => (s, .error e)

def reportOf (s : Session) (e : Evaluator) (baselineTime : Float) (r : Search.State) : SearchSummary :=
  { method := s.method
    evaluator := e.name
    explored := r.explored
    discarded := r.discarded
    bestEvaluation := r.bestCost?.getD (1.0 / 0.0)
    baselineTime
    bestSchedule := match r.best with
      | some n => n.applied
      | none => [] }

def explore (s : Session) (evaluator executor : Evaluator) : Answer SearchSummary :=
  match s.measureBaseline executor with
  | (s, .error e) => (s, .error e)
  | (s, .ok baselineTime) =>
    let found : Outcome SearchError Search.State := do
      let n ← Nest.initial s.context
      s.method.search s.context s.config n evaluator s.draws s.searched
    match found with
    | .ok r =>
      let report := s.reportOf evaluator baselineTime r
      ({ s with searched := r, report := some report }, .ok report)
    | .error e => ({ s with searched := s.searched.reset }, Outcome.mapRefusal .search (.error e))

def runBest (s : Session) (executor : Evaluator) : Outcome SessionError BestRun := do
  let report ← Outcome.require s.report .noSearchPerformed
  let nest ← Outcome.require s.searched.best .noSearchPerformed
  let printed ← nest.tableText s.context.program s.style
  let executionTime ← (executor.evaluate nest).mapRefusal .bestScheduleFailed
  return { nest, printed, executionTime, speedup := report.baselineTime / executionTime }

end Session

end LoopNest

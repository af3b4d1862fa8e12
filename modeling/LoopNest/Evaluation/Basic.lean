import LoopNest.Arithmetic
import LoopNest.Execution.Interpreter
import LoopNest.Nest.Basic

namespace LoopNest

inductive BackendError where
  | kernel (cause : String)
  | harness (cause : String)
  | timeout
  deriving DecidableEq

def BackendError.message : BackendError → String
  | kernel cause => cause
  | harness cause => cause
  | timeout => "deadline exceeded"

def ExecutionError.toBackend : ExecutionError → BackendError
  | missingInput b => .harness ("missing input `" ++ b ++ "`")
  | outOfBounds c b => .kernel ("`" ++ c ++ "` accesses `" ++ b ++ "` out of bounds")
  | numbering e => .kernel e.message

inductive EvaluationError where
  | kernelBuild (cause : String)
  | kernelRun (cause : String)
  | model (cause : String)
  | internal (cause : String)
  deriving DecidableEq

namespace EvaluationError

def message : EvaluationError → String
  | kernelBuild cause => "generated kernel failed to build: " ++ cause
  | kernelRun cause => "generated kernel failed to run: " ++ cause
  | model cause => "cannot estimate cost: " ++ cause
  | internal cause => "evaluator failure: " ++ cause

def blamesCandidate : EvaluationError → Bool
  | kernelBuild _ => true
  | kernelRun _ => true
  | model _ => false
  | internal _ => false

end EvaluationError

abbrev Evaluated (α : Type) : Type := Outcome EvaluationError α

structure Evaluator where
  name : String
  evaluate : Nest → Evaluated Float

def Evaluator.constant (x : Float) : Evaluator where
  name := "constant"
  evaluate _ := .ok x

def worstCost : Float := Float.ofBits 0x7fefffffffffffff

inductive Reduction where
  | min
  | mean
  deriving DecidableEq

namespace Reduction

def milliseconds (nanoseconds : Nat) : Float := Float.ofNat nanoseconds / 1e6

def reduce (r : Reduction) (times : List Nat) : Option Float :=
  match times.map milliseconds with
  | [] => none
  | t :: ts =>
    match r with
    | min => some (ts.foldl Arithmetic.least t)
    | mean => some ((t :: ts).foldl (· + ·) 0.0 / Float.ofNat times.length)

end Reduction

end LoopNest

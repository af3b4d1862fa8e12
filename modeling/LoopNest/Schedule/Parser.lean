import LoopNest.Decimal.Integer
import LoopNest.Schedule.Basic
import LoopNest.Text.Blank

namespace LoopNest

inductive TransformationIssue where
  | empty
  | operandCount (keyword : String) (expected got : Nat)
  | badFactor (word : String)
  | unknownKeyword (keyword : String)
  deriving DecidableEq

def TransformationIssue.message : TransformationIssue → String
  | empty => "empty transformation"
  | operandCount keyword expected got =>
    "`" ++ keyword ++ "` takes " ++ toString expected ++ " arguments, got " ++ toString got
  | badFactor word => "`" ++ word ++ "` is not a valid factor"
  | unknownKeyword keyword => "unknown transformation `" ++ keyword ++ "`"

namespace Transformation

def factor (word : String) : Except TransformationIssue Nat :=
  match Decimal.natUpTo? Decimal.word32Max word with
  | some n => .ok n
  | none => .error (.badFactor word)

def ofWords : List String → Except TransformationIssue Transformation
  | [] => .error .empty
  | keyword :: args =>
    match keyword, args with
    | "tile", [d, n] => do let n ← factor n; return .tile d n
    | "unroll", [d, n] => do let n ← factor n; return .unroll d n
    | "vectorize", [d, n] => do let n ← factor n; return .vectorize d n
    | "interchange", [a, b] => .ok (.interchange a b)
    | "fuse", [a, b, d] => .ok (.fuse a b d)
    | "parallelize", [d] => .ok (.parallelize d)
    | "tile", args | "unroll", args | "vectorize", args | "interchange", args =>
      .error (.operandCount keyword 2 args.length)
    | "fuse", args => .error (.operandCount keyword 3 args.length)
    | "parallelize", args => .error (.operandCount keyword 1 args.length)
    | _, _ => .error (.unknownKeyword keyword)

def parse (line : String) : Except TransformationIssue Transformation := ofWords (Text.words line)

end Transformation

structure ScheduleTextError where
  line : Nat
  issue : TransformationIssue
  deriving DecidableEq

def ScheduleTextError.message (e : ScheduleTextError) : String :=
  "line " ++ toString e.line ++ ": " ++ e.issue.message

namespace Schedule

def parseLines : Nat → List String → Except ScheduleTextError Schedule
  | _, [] => .ok []
  | n, raw :: rest =>
    let line := Text.trim (Text.before '#' raw)
    if line.isEmpty then parseLines (n + 1) rest
    else match Transformation.parse line with
      | .error issue => .error ⟨n, issue⟩
      | .ok t => do
        let ts ← parseLines (n + 1) rest
        return t :: ts

def parse (s : String) : Except ScheduleTextError Schedule := parseLines 1 (Text.lines s)

end Schedule

end LoopNest

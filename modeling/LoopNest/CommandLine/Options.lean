import LoopNest.Decimal.Integer
import LoopNest.Evaluation.Basic
import LoopNest.Nest.Table
import LoopNest.Search.Method

namespace LoopNest.CommandLine

inductive Source where
  | catalogue (name : String) (size : Int)
  | file (path : String)
  deriving DecidableEq

structure Options where
  style : TableStyle := .full
  method : SearchMethod := .beam
  config : SearchParameters := {}
  runs : Option Nat := none
  reduction : Reduction := .min
  inputSeed : Nat := 0
  replay : Option String := none
  saveSchedule : Option String := none
  printCode : Bool := false

inductive UsageError where
  | unknownOption (name : String)
  | badValue (name value : String)
  | missingValue (name : String)
  | unknownProgram (name : String)
  | missingProgram
  deriving DecidableEq

namespace UsageError

def message : UsageError → String
  | unknownOption name => "unknown option " ++ name
  | badValue name value => "invalid value `" ++ value ++ "` for " ++ name
  | missingValue name => "a value is required for " ++ name
  | unknownProgram name => "unknown program " ++ name
  | missingProgram => "no program given"

end UsageError

def style? : String → Option TableStyle
  | "full" => some .full
  | "compact" => some .compact
  | _ => none

def method? : String → Option SearchMethod
  | "exhaustive" => some .exhaustive
  | "beam" => some .beam
  | "greedy" => some .greedy
  | "randomized" => some .randomized
  | _ => none

def reduction? : String → Option Reduction
  | "min" => some .min
  | "mean" => some .mean
  | _ => none

def size? (s : String) : Option Int :=
  let n? : Option Int := match s.toList with
    | '-' :: ds => (Decimal.unsigned? ds).map fun n => -(n : Int)
    | '+' :: ds => (Decimal.unsigned? ds).map Int.ofNat
    | ds => (Decimal.unsigned? ds).map Int.ofNat
  n?.filter Word.fits

def count? : String → Option Nat := Decimal.natUpTo? Decimal.word64Max

def withValue (o : Options) (name value : String) : Except UsageError Options :=
  let c := o.config
  let put {α : Type} (read : String → Option α) (f : α → Options) : Except UsageError Options :=
    match read value with
    | some a => .ok (f a)
    | none => .error (.badValue name value)
  match name with
  | "--print-style" => put style? fun x => { o with style := x }
  | "--search" => put method? fun x => { o with method := x }
  | "--reduction" => put reduction? fun x => { o with reduction := x }
  | "--max-depth" => put count? fun n => { o with config := { c with maxDepth := n } }
  | "--max-explored" => put count? fun n => { o with config := { c with maxExplored := n } }
  | "--beam-width" => put count? fun n => { o with config := { c with beamWidth := n } }
  | "--population" => put count? fun n => { o with config := { c with population := n } }
  | "--sample-size" => put count? fun n => { o with config := { c with sampleSize := n } }
  | "--seed" => put count? fun n => { o with config := { c with seed := n } }
  | "--runs" => put count? fun n => { o with runs := some n }
  | "--input-seed" => put count? fun n => { o with inputSeed := n }
  | "--replay" => .ok { o with replay := some value }
  | "--save-schedule" => .ok { o with saveSchedule := some value }
  | _ => .error (.unknownOption name)

def catalogueName? : String → Option String
  | "matmul" => some "matmul"
  | "two-mm" => some "two_mm"
  | "blur" => some "blur"
  | "cholesky" => some "cholesky"
  | "producer-consumer" => some "producer_consumer"
  | _ => none

def source (name value : String) : Except UsageError Source :=
  if name = "load" then .ok (.file value)
  else match catalogueName? name, size? value with
    | some n, some size => .ok (.catalogue n size)
    | some _, none => .error (.badValue name value)
    | none, _ => .error (.unknownProgram name)

def isOption (word : String) : Bool := word.startsWith "--"

def parse (o : Options) : List String → Except UsageError (Options × Source)
  | [] => .error .missingProgram
  | "--print-code" :: rest => parse { o with printCode := true } rest
  | [name] => .error (if isOption name then .missingValue name else .unknownProgram name)
  | name :: value :: rest => do
    if isOption name then
      let o ← withValue o name value
      parse o rest
    else if rest.isEmpty then
      let s ← source name value
      return (o, s)
    else .error (.unknownProgram name)

end LoopNest.CommandLine

import LoopNest.C.Unit
import LoopNest.CommandLine.Options
import LoopNest.Description.Catalogue
import LoopNest.Description.Json
import LoopNest.Description.Resolution
import LoopNest.Schedule.Parser
import LoopNest.Session
import LoopNest.Settings

namespace LoopNest

def SearchSummary.table (r : SearchSummary) (searchTime : String) : Text.Table where
  titles := ["Search", ""]
  rows :=
    [["Method", r.method.name], ["Evaluator", r.evaluator], ["Explored", toString r.explored],
      ["Discarded", toString r.discarded], ["Best evaluation", Decimal.fixed 4 r.bestEvaluation],
      ["Baseline time (ms)", Decimal.fixed 4 r.baselineTime], ["Search time", searchTime],
      ["Transformations", toString r.bestSchedule.length]]

namespace Schedule

def listing (s : Schedule) : String :=
  if s.isEmpty then "Schedule: (none)\n"
  else "Schedule:\n" ++ String.join (s.map fun t => "  " ++ t.text ++ "\n")

end Schedule

def outcomeText (s : Schedule) (executionTime speedup : Float) : String :=
  s.listing ++ "Execution time: " ++ Decimal.fixed 4 executionTime ++ " ms (" ++
    Decimal.fixed 2 speedup ++ "x speedup)\n"

namespace CommandLine

def fail {α : Type} (message : String) : IO α := throw (IO.userError message)

def faultText : Fault → String
  | .overflow => "arithmetic overflow"
  | .indexOutOfRange => "index out of range"
  | .durationOverflow => "duration overflow"
  | .shapeMismatch => "matrix shapes do not match"
  | .notAnOutput => "not an output buffer"

def demand {ε α : Type} (message : ε → String) : Outcome ε α → IO α
  | .ok a => pure a
  | .error (.refused e) => fail (message e)
  | .error (.fault f) => fail (faultText f)

def demandChecked {α : Type} : Checked α → IO α
  | .ok a => pure a
  | .error f => fail (faultText f)

def readDescription : Source → IO Description
  | .catalogue name size => pure (Description.named name size)
  | .file path => do
    let text ← IO.FS.readFile path
    match Description.ofText? text with
    | some d => pure d
    | none => fail ("parsing " ++ path)

def timeRun (p : Program) (roots : List Node) (inputs : Inputs Float) : IO (Executed Nat) := do
  let start ← IO.monoNanosNow
  let result ← IO.lazyPure fun _ => Interpreter.runTree Arithmetic.binary64 p roots inputs
  match result with
  | .error e => return .error e
  | .ok _ => do
    let stop ← IO.monoNanosNow
    return .ok (stop - start)

def timeRuns (p : Program) (roots : List Node) (inputs : Inputs Float) : Nat → IO (Executed (List Nat))
  | 0 => return .ok []
  | n + 1 => do
    match ← timeRun p roots inputs with
    | .error e => return .error e
    | .ok t =>
      match ← timeRuns p roots inputs n with
      | .error e => return .error e
      | .ok ts => return .ok (t :: ts)

def measure (o : Options) (runs : Nat) (p : Program) (inputs : Inputs Float) (n : Nest) :
    IO Evaluator := do
  let times ← timeRuns p n.roots inputs (max runs 1)
  let answer : Evaluated Float := do
    let ts ← times.mapRefusal fun e => EvaluationError.kernelRun e.toBackend.message
    Outcome.require (o.reduction.reduce ts) (.internal "backend returned no measurements")
  return { name := "execution", evaluate := fun _ => answer }

def printCode (o : Options) (p : Program) (n : Nest) : IO Unit := do
  if o.printCode then
    let source ← demandChecked (C.unitText p n)
    IO.println ""
    IO.print source

def search (o : Options) (runs : Nat) (c : Context) (inputs : Inputs Float) : IO Unit := do
  let p := c.program
  let initial ← demandChecked (Nest.initial c)
  let baseline ← measure o runs p inputs initial
  let s : Session := { context := c, method := o.method, config := o.config, style := o.style }
  let start ← IO.monoMsNow
  let (s, report) ← IO.lazyPure fun _ => s.explore (Machine.evaluator {} p) baseline
  let report ← demand SessionError.message report
  let stop ← IO.monoMsNow
  IO.println (report.table (toString (stop - start) ++ "ms")).text
  let best ← measure o runs p inputs (s.searched.best.getD initial)
  let applied ← demand SessionError.message (s.runBest best)
  IO.println applied.printed
  IO.print (outcomeText applied.nest.applied applied.executionTime applied.speedup)
  printCode o p applied.nest
  match o.saveSchedule with
  | some path => IO.FS.writeFile path (Schedule.text applied.nest.applied)
  | none => pure ()

def replay (o : Options) (runs : Nat) (c : Context) (inputs : Inputs Float) (path : String) :
    IO Unit := do
  let p := c.program
  let text ← IO.FS.readFile path
  let schedule ← demand ScheduleTextError.message (Outcome.ofExcept (Schedule.parse text))
  let nest ← demand DeriveError.message (Nest.replay c schedule)
  let initial ← demandChecked (Nest.initial c)
  let baseline ← measure o runs p inputs initial
  let baselineTime ← demand EvaluationError.message (baseline.evaluate initial)
  let printed ← demandChecked (nest.tableText p o.style)
  IO.println printed
  let executor ← measure o runs p inputs nest
  let executionTime ← demand EvaluationError.message (executor.evaluate nest)
  IO.print (outcomeText schedule executionTime (baselineTime / executionTime))
  printCode o p nest

def run (o : Options) (source : Source) : IO Unit := do
  let d ← readDescription source
  let p ← demand DescriptionError.message d.build
  let c := Context.ofProgram p
  let inputs := Inputs.generate p o.inputSeed
  let setting ← IO.getEnv "NB_EXEC"
  let runs := o.runs.getD (Settings.runs setting)
  match o.replay with
  | some path => replay o runs c inputs path
  | none => search o runs c inputs

end CommandLine

end LoopNest

def main (args : List String) : IO UInt32 := do
  match LoopNest.CommandLine.parse {} args with
  | .error e =>
    IO.eprintln ("error: " ++ e.message)
    return 2
  | .ok (o, source) =>
    try
      LoopNest.CommandLine.run o source
      return 0
    catch e =>
      IO.eprintln ("Error: " ++ toString e)
      return 1

import LoopNest.C.Unit
import LoopNest.Decimal.Integer
import LoopNest.Evaluation.Basic
import LoopNest.Text.Blank

namespace LoopNest.C

def compilerArgs (color : Bool) (dir : String) : List String :=
  (if color then ["-fcolor-diagnostics"] else []) ++
    ["-fopenmp", "-std=gnu99", "-O3", "-o", dir ++ "/a.out", dir ++ "/main.c", "-lm"]

structure Finished where
  exitCode : Nat
  stdout : String
  stderr : String

inductive BenchmarkIssue where
  | noMark
  | missingWord
  | badUnit
  | badNumber (i : Decimal.IntegerIssue)
  deriving DecidableEq

def BenchmarkIssue.message : BenchmarkIssue → String
  | noMark => "expected \"cpu:\" prefix in benchmark output"
  | missingWord => "invalid output format"
  | badUnit => "invalid time unit"
  | badNumber i => i.message

inductive RunError where
  | compilerMissing (path : String)
  | compilerFailed (exitCode : Nat) (stderr : String)
  | missingInput (buffer : String)
  | kernelFailed (exitCode : Nat) (stderr : String)
  | badLine (i : BenchmarkIssue)
  | wrongCount (expected got : Nat)
  deriving DecidableEq

def RunError.toBackend : RunError → BackendError
  | compilerMissing path =>
    .harness ("could not run " ++ path ++ ": No such file or directory (os error 2)")
  | compilerFailed code stderr =>
    .kernel ("Clang exited with exit status: " ++ toString code ++ "\n" ++ stderr)
  | missingInput b => .harness ("missing input `" ++ b ++ "`")
  | kernelFailed code stderr =>
    .kernel ("Failed to run the generated code: exit status: " ++ toString code ++ "\n" ++ stderr)
  | badLine i => .harness i.message
  | wrongCount expected got =>
    .harness ("expected " ++ toString expected ++ " timings, got " ++ toString got)

def compileResult (f : Finished) : Except RunError Unit :=
  if f.exitCode = 0 then .ok () else .error (.compilerFailed f.exitCode f.stderr)

def stripEnd (unit : List Char) : Nat → List Char → List Char
  | 0, w => w
  | tries + 1, w =>
    if unit.isSuffixOf w then stripEnd unit tries (w.take (w.length - unit.length)) else w

/-- Drops every repetition of a unit from the end of a word. -/
def withoutUnit (unit : String) (w : String) : String :=
  String.ofList (stripEnd unit.toList w.length w.toList)

def readNumber (limit : Nat) (s : String) : Except BenchmarkIssue Nat :=
  (Decimal.read limit s).mapError .badNumber

def nanosecondsPerSecond : Nat := 1000000000

/-- Seconds are kept in 64 bits, after nanoseconds beyond a second have been carried over. -/
def duration (s ns : Nat) : Checked Nat :=
  if s + ns / nanosecondsPerSecond ≤ Decimal.word64Max then .ok (s * nanosecondsPerSecond + ns)
  else .error .durationOverflow

def parseLine (line : String) : Outcome BenchmarkIssue Nat :=
  match Text.words line with
  | "cpu:" :: rest =>
    match rest with
    | s :: ns :: _ =>
      -- both units are looked at before either number
      if !("s".toList.isSuffixOf s.toList) || !("ns".toList.isSuffixOf ns.toList) then
        Outcome.refuse .badUnit
      else do
        let s ← Outcome.ofExcept (readNumber Decimal.word64Max (withoutUnit "s" s))
        let ns ← Outcome.ofExcept (readNumber Decimal.word32Max (withoutUnit "ns" ns))
        duration s ns
    | _ => Outcome.refuse .missingWord
  | _ => Outcome.refuse .noMark

def parseLines : List String → Outcome BenchmarkIssue (List Nat)
  | [] => .ok []
  | l :: ls => do
    let t ← parseLine l
    let ts ← parseLines ls
    return t :: ts

def isTimingLine (l : String) : Bool := "cpu:".toList.isPrefixOf l.toList

def timings (runs : Nat) (f : Finished) : Outcome RunError (List Nat) :=
  if f.exitCode ≠ 0 then Outcome.refuse (.kernelFailed f.exitCode f.stderr)
  else do
    let ts ← (parseLines ((Text.lines f.stdout).filter isTimingLine)).mapRefusal .badLine
    if ts.length = runs then return ts else Outcome.refuse (.wrongCount runs ts.length)

def littleEndian : Nat → Nat → List Nat
  | 0, _ => []
  | bytes + 1, n => n % 256 :: littleEndian bytes (n / 256)

def elementBytes (d : ElementType) (x : Float) : List Nat :=
  match d with
  | .float32 => littleEndian 4 x.toFloat32.toBits.toNat
  | .float64 => littleEndian 8 x.toBits.toNat
  | .int32 => littleEndian 4 ((ElementType.truncate32 x) % 4294967296).toNat

structure InputFile where
  buffer : String
  bytes : List Nat

def inputFiles (i : Inputs Float) : List Buffer → List InputFile × Except RunError Unit
  | [] => ([], .ok ())
  | b :: bs =>
    if b.kind ≠ .input then inputFiles i bs
    else match i.get? b.name with
      | none => ([], .error (.missingInput b.name))
      | some values =>
        let (files, result) := inputFiles i bs
        ({ buffer := b.name, bytes := values.toList.flatMap (elementBytes b.dtype) } :: files, result)

end LoopNest.C

import LoopNest.Decimal.Integer

namespace LoopNest.Settings

def standardRuns : Nat := 5

def runs (setting : Option String) : Nat :=
  match setting.bind (Decimal.natUpTo? Decimal.word64Max) with
  | some n => if 0 < n then n else standardRuns
  | none => standardRuns

inductive CompilerError where
  | notSet
  deriving DecidableEq

def CompilerError.message : CompilerError → String
  | notSet => "Environment variable CLANG is not set"

def compiler (setting : Option String) : Except CompilerError String :=
  match setting with
  | some path => .ok path
  | none => .error .notSet

inductive Coloring where
  | never
  | auto
  | always
  deriving DecidableEq

def Coloring.named (word : String) : Coloring :=
  match word with
  | "always" => always
  | "never" => never
  | _ => auto

def Coloring.applies (m : Coloring) (terminal : Bool) : Bool :=
  match m with
  | never => false
  | auto => terminal
  | always => true

end LoopNest.Settings

import LoopNest.Program.Basic

namespace LoopNest

abbrev Inputs (V : Type) : Type := List (String × Array V)

inductive InputError where
  | missing (buffer : String)
  | wrongSize (buffer : String) (expected actual : Nat)
  | notAnInput (name : String)
  deriving DecidableEq

def InputError.message : InputError → String
  | missing b => "no values given for input buffer `" ++ b ++ "`"
  | wrongSize b expected actual =>
    "`" ++ b ++ "` needs " ++ toString expected ++ " values but " ++ toString actual ++ " were given"
  | notAnInput name => "`" ++ name ++ "` is not an input buffer of the program"

namespace Inputs

variable {V : Type}

def insert (name : String) (values : Array V) : Inputs V → Inputs V
  | [] => [(name, values)]
  | (k, v) :: rest =>
    if name < k then (name, values) :: (k, v) :: rest
    else if name = k then (name, values) :: rest
    else (k, v) :: insert name values rest

def get? (i : Inputs V) (name : String) : Option (Array V) :=
  (i.find? fun p => p.1 == name).map Prod.snd

def isInput (p : Program) (name : String) : Bool :=
  match p.buffers.find? fun b => b.name == name with
  | some b => b.kind == .input
  | none => false

def checkNames (p : Program) : Inputs V → Except InputError Unit
  | [] => .ok ()
  | (name, _) :: rest => if isInput p name then checkNames p rest else .error (.notAnInput name)

def checkSizes (i : Inputs V) : List Buffer → Except InputError Unit
  | [] => .ok ()
  | b :: bs =>
    if b.kind ≠ .input then checkSizes i bs
    else match i.get? b.name with
      | none => .error (.missing b.name)
      | some vs =>
        if vs.size ≠ b.volume then .error (.wrongSize b.name b.volume vs.size) else checkSizes i bs

def validate (p : Program) (i : Inputs V) : Except InputError Unit := do
  checkNames p i
  checkSizes i p.buffers

def nextRandom (s : Nat) : Nat := (s * 6364136223846793005 + 1442695040888963407) % (1 <<< 64)

def randomValues (d : ElementType) : Nat → Nat → Array Float → Array Float × Nat
  | 0, s, acc => (acc, s)
  | n + 1, s, acc =>
    let s := nextRandom s
    let unit := (s >>> 11).toFloat / (1 <<< 53 : Nat).toFloat
    randomValues d n s (acc.push (d.round (unit * 16.0 - 8.0)))

def generateFrom : Nat → List Buffer → Inputs Float → Inputs Float
  | _, [], acc => acc
  | s, b :: bs, acc =>
    if b.kind = .input then
      let (values, s) := randomValues b.dtype b.volume s #[]
      generateFrom s bs (insert b.name values acc)
    else generateFrom s bs acc

/-- Pseudo-random values from -8 up to 8 for every input buffer, rounded to its type. -/
def generate (p : Program) (seed : Nat) : Inputs Float := generateFrom seed p.buffers []

end Inputs

end LoopNest

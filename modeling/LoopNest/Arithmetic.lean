import LoopNest.ElementType

/-!
The operations of programs on values. Everything that computes values takes them from an `Arithmetic`
record; `Arithmetic.binary64` is the one that runs, and no statement about programs depends on its laws
unless it says so.
-/

namespace LoopNest

inductive Operator where
  | add
  | sub
  | mul
  | div
  | min
  | max
  deriving DecidableEq

inductive Intrinsic where
  | sqrt
  | exp
  | abs
  deriving DecidableEq

namespace Operator

def symbol : Operator → String
  | add => "+"
  | sub => "-"
  | mul => "*"
  | div => "/"
  | min => "min"
  | max => "max"

def name : Operator → String
  | add => "Add"
  | sub => "Sub"
  | mul => "Mul"
  | div => "Div"
  | min => "Min"
  | max => "Max"

end Operator

namespace Intrinsic

def arity (_ : Intrinsic) : Nat := 1

def name : Intrinsic → String
  | sqrt => "sqrt"
  | exp => "exp"
  | abs => "fabs"

end Intrinsic

structure Arithmetic (V : Type) where
  ofConst : Float → V
  ofInt : Int → V
  binary : Operator → V → V → V
  neg : V → V
  call : Intrinsic → V → V
  round : ElementType → V → V
  zero : V

namespace Arithmetic

/-- A number beats not-a-number. -/
def least (a b : Float) : Float :=
  if a.isNaN then b else if b.isNaN then a else if b < a then b else a

def greatest (a b : Float) : Float :=
  if a.isNaN then b else if b.isNaN then a else if a < b then b else a

def floatBinary : Operator → Float → Float → Float
  | .add, a, b => a + b
  | .sub, a, b => a - b
  | .mul, a, b => a * b
  | .div, a, b => a / b
  | .min, a, b => least a b
  | .max, a, b => greatest a b

def floatCall : Intrinsic → Float → Float
  | .sqrt, a => a.sqrt
  | .exp, a => a.exp
  | .abs, a => a.abs

def binary64 : Arithmetic Float where
  ofConst := id
  ofInt n := (Int64.ofInt n).toFloat
  binary := floatBinary
  neg a := -a
  call := floatCall
  round := ElementType.round
  zero := 0.0

end Arithmetic

end LoopNest

namespace LoopNest

inductive ElementType where
  | float32
  | float64
  | int32
  deriving DecidableEq

inductive BufferRole where
  | input
  | output
  | temporary
  deriving DecidableEq

namespace ElementType

/-- Truncates toward zero and clamps to the range of 32-bit integers; not-a-number becomes zero. -/
def truncate32 (x : Float) : Int :=
  if x.isNaN then 0
  else if x ≤ -2147483648.0 then -2147483648
  else if x ≥ 2147483647.0 then 2147483647
  else x.toInt64.toInt

def size : ElementType → Nat
  | float32 => 4
  | float64 => 8
  | int32 => 4

def name : ElementType → String
  | float32 => "f32"
  | float64 => "f64"
  | int32 => "i32"

def cType : ElementType → String
  | float32 => "float"
  | float64 => "double"
  | int32 => "int32_t"

def round (d : ElementType) (x : Float) : Float :=
  match d with
  | float32 => x.toFloat32.toFloat
  | float64 => x
  | int32 => (Int64.ofInt (truncate32 x)).toFloat

end ElementType

end LoopNest

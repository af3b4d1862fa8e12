import LoopNest.Decimal.Integer
import LoopNest.Json.Reader
import LoopNest.Schedule.Basic

namespace LoopNest

open LoopNest.Json (named? asString? asNat? listOf?)

namespace Transformation

def withFactor? (make : String → Nat → Transformation) (j : Json) : Option Transformation := do
  match ← named? ["dim", "factor"] j with
  | [some dim, some factor] => do
    let dim ← asString? dim
    let factor ← asNat? Decimal.word32Max factor
    return make dim factor
  | _ => none

def ofJson? : Json → Option Transformation
  | .obj [("Tile", j)] => withFactor? .tile j
  | .obj [("Unroll", j)] => withFactor? .unroll j
  | .obj [("Vectorize", j)] => withFactor? .vectorize j
  | .obj [("Interchange", j)] => do
    match ← named? ["first", "second"] j with
    | [some a, some b] => do
      let a ← asString? a
      let b ← asString? b
      return .interchange a b
    | _ => none
  | .obj [("Fuse", j)] => do
    match ← named? ["first", "second", "dim"] j with
    | [some a, some b, some d] => do
      let a ← asString? a
      let b ← asString? b
      let d ← asString? d
      return .fuse a b d
    | _ => none
  | .obj [("Parallelize", j)] => do
    match ← named? ["dim"] j with
    | [some d] => (asString? d).map .parallelize
    | _ => none
  | _ => none

def fields : Transformation → String × List (String × Json)
  | tile d n => ("Tile", [("dim", .str d), ("factor", .int n)])
  | interchange a b => ("Interchange", [("first", .str a), ("second", .str b)])
  | fuse a b d => ("Fuse", [("first", .str a), ("second", .str b), ("dim", .str d)])
  | unroll d n => ("Unroll", [("dim", .str d), ("factor", .int n)])
  | parallelize d => ("Parallelize", [("dim", .str d)])
  | vectorize d n => ("Vectorize", [("dim", .str d), ("factor", .int n)])

def toJson (t : Transformation) : Json :=
  let (kind, fs) := t.fields
  .obj [(kind, .obj fs)]

end Transformation

namespace Schedule

def ofJson? (j : Json) : Option Schedule := listOf? Transformation.ofJson? j

def toJson (s : Schedule) : Json := .arr (s.map Transformation.toJson)

end Schedule

end LoopNest

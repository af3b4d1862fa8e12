import LoopNest.Description.Json
import LoopNest.Program.Basic

namespace LoopNest

def Affine.toJson (f : Affine) : Json :=
  .arr [.arr (f.terms.map fun t => .arr [.int t.coeff, .str t.atom]), .int f.constant]

def Access.toJson (a : Access) : Json :=
  .obj [("buffer", .int a.buffer), ("indices", .arr (a.indices.map Affine.toJson))]

def Expr.toJson : Expr → Json
  | .const v => .obj [("Const", .float v)]
  | .iter name => .obj [("Iter", .str name)]
  | .load a => .obj [("Load", a.toJson)]
  | .binary op l r => .obj [("Binary", .arr [.str op.name, l.toJson, r.toJson])]
  | .neg e => .obj [("Neg", e.toJson)]
  | .call f e => .obj [("Call", .arr [.str (intrinsicWord f), .arr [e.toJson]])]
where
  intrinsicWord : Intrinsic → String
    | .sqrt => "Sqrt"
    | .exp => "Exp"
    | .abs => "Abs"

def Dimension.toJson (d : Dimension) : Json :=
  .obj [("name", .str d.name), ("lower", d.lower.toJson), ("upper", d.upper.toJson)]

def Buffer.toJson (b : Buffer) : Json :=
  .obj [("name", .str b.name), ("shape", .arr (b.shape.map fun (n : Nat) => .int n)),
    ("dtype", .str (Description.dtypeWord b.dtype)), ("kind", .str (Description.kindWord b.kind))]

def afterJson : Option (Nat × Nat) → Json
  | some (other, level) => .arr [.int other, .int level]
  | none => .null

def Computation.toJson (c : Computation) : Json :=
  .obj [("name", .str c.name), ("domain", .arr (c.domain.map Dimension.toJson)),
    ("expr", c.expr.toJson), ("store", c.store.toJson), ("after", afterJson c.after)]

def Program.toJson (p : Program) : Json :=
  .obj [("name", .str p.name), ("params", Description.paramsToJson p.params),
    ("buffers", .arr (p.buffers.map Buffer.toJson)),
    ("computations", .arr (p.computations.map Computation.toJson))]

end LoopNest

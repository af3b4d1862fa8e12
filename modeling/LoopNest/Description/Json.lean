import LoopNest.Decimal.Integer
import LoopNest.Description.Basic
import LoopNest.Json.Parser
import LoopNest.Json.Reader
import LoopNest.Word

namespace LoopNest.Description

open LoopNest.Json (record? listOf? asString? asFloat? asInt? asNat? word?)

def dtype? (j : Json) : Option ElementType := do
  match ← word? j with
  | "float32" => some .float32
  | "float64" => some .float64
  | "int32" => some .int32
  | _ => none

def dtypeWord : ElementType → String
  | .float32 => "float32"
  | .float64 => "float64"
  | .int32 => "int32"

def kind? (j : Json) : Option BufferRole := do
  match ← word? j with
  | "input" => some .input
  | "output" => some .output
  | "temporary" => some .temporary
  | _ => none

def kindWord : BufferRole → String
  | .input => "input"
  | .output => "output"
  | .temporary => "temporary"

def buffer? (j : Json) : Option Buffer := do
  match ← record? ["name", "shape", "dtype", "kind"] j with
  | [some name, some shape, some dtype, some kind] => do
    let name ← asString? name
    let shape ← listOf? asString? shape
    let dtype ← dtype? dtype
    let kind ← kind? kind
    return { name, shape, dtype, kind }
  | _ => none

def iterator? (j : Json) : Option Iterator := do
  match ← record? ["name", "lower", "upper"] j with
  | [some name, some lower, some upper] => do
    let name ← asString? name
    let lower ← asString? lower
    let upper ← asString? upper
    return { name, lower, upper }
  | _ => none

def access? (j : Json) : Option Access := do
  match ← record? ["buffer", "indices"] j with
  | [some buffer, some indices] => do
    let buffer ← asString? buffer
    let indices ← listOf? asString? indices
    return { buffer, indices }
  | _ => none

def after? (j : Json) : Option After := do
  match ← record? ["computation", "level"] j with
  | [some computation, some level] => do
    let computation ← asString? computation
    let level ← asNat? Decimal.word64Max level
    return { computation, level }
  | _ => none

def exprKinds : List String := ["const", "iter", "load", "binary", "neg", "call"]

def exprKind? (inner : Bool) : Json → Option String
  | .str s => some s
  | .int n => if inner && 0 ≤ n then exprKinds[n.toNat]? else none
  | _ => none

def tagged? (inner : Bool) : Json → Option (String × Json)
  | .obj fields => do
    let kind ← (← Json.once? "kind" fields)
    let kind ← exprKind? inner kind
    return (kind, .obj (fields.filter fun f => f.1 != "kind"))
  | .arr (kind :: rest) => do
    let kind ← exprKind? inner kind
    return (kind, .arr rest)
  | _ => none

/-- `height` bounds the expressions inside one another; the text reader admits no more than
`Json.depthLimit` containers. -/
def expr? : Nat → Bool → Json → Option Expr
  | 0, _, _ => none
  | height + 1, inner, j => do
    let (kind, rest) ← tagged? inner j
    match kind with
    | "const" =>
      match ← record? ["value"] rest with
      | [some value] => (asFloat? value).map .const
      | _ => none
    | "iter" =>
      match ← record? ["name"] rest with
      | [some name] => (asString? name).map .iter
      | _ => none
    | "load" => (access? rest).map .load
    | "binary" =>
      match ← record? ["op", "lhs", "rhs"] rest with
      | [some op, some lhs, some rhs] => do
        let op ← asString? op
        let lhs ← expr? height true lhs
        let rhs ← expr? height true rhs
        return .binary op lhs rhs
      | _ => none
    | "neg" =>
      match ← record? ["arg"] rest with
      | [some arg] => (expr? height true arg).map .neg
      | _ => none
    | "call" =>
      match ← record? ["name", "args"] rest with
      | [some name, some args] => do
        let name ← asString? name
        let args ← listOf? (expr? height true) args
        return .call name args
      | _ => none
    | _ => none

def wholeExpr? (j : Json) : Option Expr :=
  if j.isReadable then expr? (Json.depthLimit + 1) false j else none

def computation? (j : Json) : Option Computation := do
  match ← record? ["name", "iterators", "store", "expr", "after"] j with
  | [some name, some iterators, some store, some expr, after] => do
    let name ← asString? name
    let iterators ← listOf? iterator? iterators
    let store ← access? store
    let expr ← wholeExpr? expr
    let after ← match after with
      | none => some none
      | some .null => some none
      | some j => (after? j).map some
    return { name, iterators, store, expr, after }
  | _ => none

def paramFields? : List (String × Json) → Option (List (String × Int))
  | [] => some []
  | (k, j) :: rest => do
    let v ← asInt? Word.minValue Word.maxValue j
    let vs ← paramFields? rest
    return (k, v) :: vs

def params? : Option Json → Option (List (String × Int))
  | none => some []
  | some (.obj fields) => do
    let ps ← paramFields? fields
    return ps.foldl (fun acc (k, v) => insertParam k v acc) []
  | some _ => none

def ofJson? (j : Json) : Option Description := do
  match ← record? ["name", "params", "buffers", "computations"] j with
  | [some name, params, some buffers, some computations] => do
    let name ← asString? name
    let params ← params? params
    let buffers ← listOf? buffer? buffers
    let computations ← listOf? computation? computations
    return { name, params, buffers, computations }
  | _ => none

def ofText? (s : String) : Option Description := do
  let j ← Json.parse? s
  ofJson? j

def strings (ss : List String) : Json := .arr (ss.map .str)

def Access.fields (a : Access) : List (String × Json) :=
  [("buffer", .str a.buffer), ("indices", strings a.indices)]

mutual

def Expr.toJson : Expr → Json
  | .const v => .obj [("kind", .str "const"), ("value", .float v)]
  | .iter name => .obj [("kind", .str "iter"), ("name", .str name)]
  | .load a => .obj (("kind", .str "load") :: a.fields)
  | .binary op l r =>
    .obj [("kind", .str "binary"), ("op", .str op), ("lhs", l.toJson), ("rhs", r.toJson)]
  | .neg e => .obj [("kind", .str "neg"), ("arg", e.toJson)]
  | .call name args => .obj [("kind", .str "call"), ("name", .str name), ("args", .arr (allToJson args))]

def allToJson : List Expr → List Json
  | [] => []
  | e :: es => e.toJson :: allToJson es

end

def Buffer.toJson (b : Buffer) : Json :=
  .obj [("name", .str b.name), ("shape", strings b.shape), ("dtype", .str (dtypeWord b.dtype)),
    ("kind", .str (kindWord b.kind))]

def Iterator.toJson (i : Iterator) : Json :=
  .obj [("name", .str i.name), ("lower", .str i.lower), ("upper", .str i.upper)]

def After.toJson (a : After) : Json :=
  .obj [("computation", .str a.computation), ("level", .int a.level)]

def Computation.toJson (c : Computation) : Json :=
  .obj ([("name", .str c.name), ("iterators", .arr (c.iterators.map Iterator.toJson)),
    ("store", .obj c.store.fields), ("expr", c.expr.toJson)] ++
    match c.after with
    | some a => [("after", a.toJson)]
    | none => [])

def paramsToJson (ps : List (String × Int)) : Json := .obj (ps.map fun (k, v) => (k, .int v))

def toJson (d : Description) : Json :=
  .obj [("name", .str d.name), ("params", paramsToJson d.params),
    ("buffers", .arr (d.buffers.map Buffer.toJson)),
    ("computations", .arr (d.computations.map Computation.toJson))]

end LoopNest.Description

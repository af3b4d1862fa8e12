import LoopNest.Cost.Estimate
import LoopNest.Text.Table

namespace LoopNest

inductive TableStyle where
  | full
  | compact
  deriving DecidableEq

namespace Nest

def rootTotal : List Node → List Float → Float → Float
  | [], _, total => total
  | n :: ns, costs, total => rootTotal ns (costs.drop n.size) (total + costs.headD 0.0)

def shareText (cost total : Float) : String :=
  let share := if total > 0.0 then 100.0 * cost / total else 0.0
  Decimal.padLeft 5 (Decimal.fixed 1 share) ++ "%"

def costCells (style : TableStyle) (costs : Option (List Float)) (total : Float) (i : Nat) :
    List String :=
  match style, costs with
  | .compact, _ => []
  | .full, none => ["", ""]
  | .full, some costs =>
    let cost := costs.getD i 0.0
    [Decimal.fixed 0 cost, shareText cost total]

mutual

def nodeLines (p : Program) (depth : Nat) : Node → Checked (List String)
  | .leaf l => do
    let t ← l.text p
    return [Text.indentation depth ++ t]
  | .loop h body => do
    let t ← h.text
    let rest ← nodesLines p (depth + 1) body
    return (Text.indentation depth ++ t) :: rest

def nodesLines (p : Program) (depth : Nat) : List Node → Checked (List String)
  | [] => .ok []
  | n :: ns => do
    let own ← nodeLines p depth n
    let rest ← nodesLines p depth ns
    return own ++ rest

end

def estimate (p : Program) (n : Nest) : Checked (Option (List Float)) :=
  match Machine.costPerNode {} p n.roots with
  | .ok costs => .ok (some costs)
  | .error (.refused _) => .ok none
  | .error (.fault f) => .error f

def table (p : Program) (style : TableStyle) (n : Nest) : Checked Text.Table := do
  let costs ← match style with
    | .full => estimate p n
    | .compact => .ok none
  let total := match costs with
    | some costs => rootTotal n.roots costs 0.0
    | none => 0.0
  let lines ← nodesLines p 0 n.roots
  let titles := match style with
    | .full => ["Loop nest", "Model cost", "Share"]
    | .compact => ["Loop nest"]
  return { titles
           rows := lines.zipIdx.map fun (t, i) => t :: costCells style costs total i }

def tableText (p : Program) (style : TableStyle) (n : Nest) : Checked String := do
  let t ← n.table p style
  return t.text

end Nest

end LoopNest

import LoopNest.Affine.Printer
import LoopNest.Decimal.Layout
import LoopNest.Program.Basic

namespace LoopNest

def textAll : List Affine → Checked (List String)
  | [] => .ok []
  | f :: fs => do
    let t ← f.text
    let ts ← textAll fs
    return t :: ts

namespace Program

def accessText (p : Program) (a : Access) : Checked String := do
  let indices ← textAll a.indices
  return p.bufferName a.buffer ++ "[" ++ ", ".intercalate indices ++ "]"

def exprText (p : Program) : Expr → Checked String
  | .const v => .ok (Decimal.plain v)
  | .iter name => .ok name
  | .load a => p.accessText a
  | .binary op l r => do
    let l ← p.exprText l
    let r ← p.exprText r
    return match op with
      | .min | .max => op.symbol ++ "(" ++ l ++ ", " ++ r ++ ")"
      | _ => "(" ++ l ++ " " ++ op.symbol ++ " " ++ r ++ ")"
  | .neg e => do
    let e ← p.exprText e
    return "-" ++ e
  | .call f e => do
    let e ← p.exprText e
    return f.name ++ "(" ++ e ++ ")"

def computationText (p : Program) (c : Computation) : Checked String := do
  let store ← p.accessText c.store
  let value ← p.exprText c.expr
  return c.name ++ "(" ++ ", ".intercalate c.iterators ++ "): " ++ store ++ " = " ++ value

end Program

end LoopNest

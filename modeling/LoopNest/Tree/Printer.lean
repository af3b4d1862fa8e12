import LoopNest.Program.Printer
import LoopNest.Text.LineMark
import LoopNest.Tree.Basic

namespace LoopNest

namespace Header

def boundText (h : Header) : Checked String := do
  let upper ← h.upper.text
  match h.clamp with
  | none => return upper
  | some c => do
    let clamp ← c.text
    return "min(" ++ upper ++ ", " ++ clamp ++ ")"

def text (h : Header) : Checked String := do
  let lower ← h.lower.text
  let bound ← h.boundText
  let parallel := if h.tags.parallel then " parallel" else ""
  let vectorize := match h.tags.vectorize with
    | some n => " vectorize(" ++ toString n ++ ")"
    | none => ""
  let unroll := match h.tags.unroll with
    | some n => " unroll(" ++ toString n ++ ")"
    | none => ""
  return "for " ++ h.dim ++ " in [" ++ lower ++ ", " ++ bound ++ ")" ++ parallel ++ vectorize ++ unroll

end Header

namespace Leaf

def bindingText (it : String) (b : Affine) : Checked String :=
  if b = Affine.var it then .ok it
  else do
    let t ← b.text
    return it ++ "=" ++ t

def bindingsText : List String → List Affine → Checked (List String)
  | it :: its, b :: bs => do
    let head ← bindingText it b
    let rest ← bindingsText its bs
    return head :: rest
  | _, _ => .ok []

def text (p : Program) (l : Leaf) : Checked String := do
  let iterators := match p.computations[l.computation]? with
    | some c => c.iterators
    | none => []
  let bindings ← bindingsText iterators l.bindings
  return p.computationName l.computation ++ "(" ++ ", ".intercalate bindings ++ ")"

def inLoops (p : Program) (l : Leaf) (f : Affine) : Checked Affine :=
  let iterators := match p.computations[l.computation]? with
    | some c => c.iterators
    | none => []
  f.bindVars fun it =>
    match (iterators.zip l.bindings).find? fun b => b.1 == it with
    | some b => b.2
    | none => .var it

end Leaf

namespace Node

def headerText (p : Program) : Node → Checked String
  | loop h _ => h.text
  | leaf l => l.text p

mutual

def text (p : Program) (depth : Nat) : Node → Checked String
  | leaf l => do
    let t ← l.text p
    return Text.indentation depth ++ t ++ "\n"
  | loop h body => do
    let t ← h.text
    let rest ← textAll p (depth + 1) body
    return Text.indentation depth ++ t ++ "\n" ++ rest

def textAll (p : Program) (depth : Nat) : List Node → Checked String
  | [] => .ok ""
  | n :: ns => do
    let t ← n.text p depth
    let rest ← textAll p depth ns
    return t ++ rest

end

end Node

end LoopNest

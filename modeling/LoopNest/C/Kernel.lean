import LoopNest.C.Statement
import LoopNest.Nest.Basic

namespace LoopNest.C

def variableName (dim : String) : String := "l_" ++ dim

def bufferVar (name : String) : String := "b_" ++ name

def ofTerm (t : Term) : Expr :=
  if t.coeff = 1 then .var (variableName t.atom)
  else if t.coeff = -1 then .neg (.var (variableName t.atom))
  else .binary "*" (.int t.coeff) (.var (variableName t.atom))

def ofAffine (f : Affine) : Expr :=
  let terms := f.terms.map ofTerm
  let parts := if f.constant ≠ 0 || terms.isEmpty then terms ++ [.int f.constant] else terms
  match parts with
  | [part] => part
  | parts => .paren (.sum parts)

def scaled (e : Expr) (stride : Nat) : Expr :=
  if stride = 1 then e else .binary "*" e (.int stride)

def indexParts (p : Program) (l : Leaf) : List Affine → List Nat → Checked (List Expr)
  | f :: fs, stride :: strides => do
    let f ← l.inLoops p f
    let rest ← indexParts p l fs strides
    return scaled (ofAffine f) stride :: rest
  | _, _ => .ok []

def ofAccess (p : Program) (l : Leaf) (a : Access) : Checked Expr := do
  match p.buffers[a.buffer]? with
  | none => Except.error .indexOutOfRange
  | some b =>
    let parts ← indexParts p l a.indices b.strides
    return .subscript (bufferVar b.name) (.sum parts)

def ofExpr (p : Program) (l : Leaf) : LoopNest.Expr → Checked Expr
  | .const v => .ok (.double v)
  | .iter name => do
    let f ← l.inLoops p (Affine.var name)
    return .cast "double" (ofAffine f)
  | .load a => ofAccess p l a
  | .binary op lhs rhs => do
    let lhs ← ofExpr p l lhs
    let rhs ← ofExpr p l rhs
    return match op with
      | .min => .call "fmin" [lhs, rhs]
      | .max => .call "fmax" [lhs, rhs]
      | _ => .paren (.binary op.symbol lhs rhs)
  | .neg e => do
    let e ← ofExpr p l e
    return .paren (.neg e)
  | .call f e => do
    let e ← ofExpr p l e
    return .call f.name [e]

def assignment (p : Program) (l : Leaf) : Checked Statement := do
  match p.computations[l.computation]? with
  | none => Except.error .indexOutOfRange
  | some c =>
    let target ← ofAccess p l c.store
    let value ← ofExpr p l c.expr
    return .assign target value

def limit (h : Header) : Expr :=
  match h.clamp with
  | some c => .call "MIN" [ofAffine h.upper, ofAffine c]
  | none => ofAffine h.upper

mutual

def ofNode (p : Program) : Node → Checked Statement
  | .leaf l => assignment p l
  | .loop h body => do
    let inner ← ofNodes p body
    return .loop h.tags (variableName h.dim) (ofAffine h.lower) (limit h) inner

def ofNodes (p : Program) : List Node → Checked (List Statement)
  | [] => .ok []
  | n :: ns => do
    let s ← ofNode p n
    let rest ← ofNodes p ns
    return s :: rest

end

def parameterText (b : Buffer) : String := b.dtype.cType ++ " *restrict " ++ bufferVar b.name

def functionName : String := "kernel"

def kernelText (p : Program) (roots : List Node) : Checked String := do
  let body ← ofNodes p roots
  return "static void " ++ functionName ++ "(" ++ ", ".intercalate (p.buffers.map parameterText) ++
    ") \x7b\n" ++ Statement.textAll 1 body ++ "\x7d\n"

end LoopNest.C

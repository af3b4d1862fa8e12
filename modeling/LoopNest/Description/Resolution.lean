import LoopNest.Affine.Parser
import LoopNest.Decimal.Integer
import LoopNest.Description.Basic
import LoopNest.Program.Basic
import LoopNest.Text.Quoted

namespace LoopNest

inductive DescriptionError where
  | emptyProgram
  | duplicateName (kind name : String)
  | unknownBuffer (name : String)
  | unknownComputation (name : String)
  | unknownName (name context : String)
  | unsupportedOperator (op : String)
  | unsupportedIntrinsic (name : String)
  | arity (name : String) (expected got : Nat)
  | rankMismatch (buffer : String) (expected got : Nat)
  | badShape (buffer : String) (dim : Nat)
  | oversizedBuffer (name : String)
  | writeToInput (computation buffer : String)
  | incompatibleSharedLoops (computation other : String) (level : Nat)
  | badAffine (e : Affine.ParseError)
  deriving DecidableEq

def ticked (s : String) : String := "`" ++ s ++ "`"

def Affine.ParseError.message (e : Affine.ParseError) : String :=
  "cannot parse affine expression " ++ Text.quoted e.text

namespace DescriptionError

def message : DescriptionError → String
  | emptyProgram => "program declares no computations"
  | duplicateName kind name => "duplicate " ++ kind ++ " name " ++ ticked name
  | unknownBuffer name => "unknown buffer " ++ ticked name
  | unknownComputation name => "unknown computation " ++ ticked name
  | unknownName name context =>
    ticked name ++ " is not a parameter or an iterator in scope in " ++ context
  | unsupportedOperator op => "unsupported operator " ++ ticked op
  | unsupportedIntrinsic name => "unsupported intrinsic " ++ ticked name
  | arity name expected got =>
    "intrinsic " ++ ticked name ++ " takes " ++ toString expected ++ " arguments, got " ++ toString got
  | rankMismatch buffer expected got =>
    "buffer " ++ ticked buffer ++ " has rank " ++ toString expected ++ ", accessed with " ++
      toString got ++ " indices"
  | badShape buffer dim =>
    "dimension " ++ toString dim ++ " of buffer " ++ ticked buffer ++ " is not a positive constant"
  | oversizedBuffer name => "buffer " ++ ticked name ++ " has more elements than can be indexed"
  | writeToInput computation buffer =>
    "computation " ++ ticked computation ++ " writes input buffer " ++ ticked buffer
  | incompatibleSharedLoops computation other level =>
    ticked computation ++ " cannot share " ++ toString level ++ " loop levels with " ++ ticked other
  | badAffine e => e.message

end DescriptionError

namespace Description

abbrev Resolved (α : Type) : Type := Outcome DescriptionError α

open Outcome (refuse)

structure Scope where
  params : List (String × Int)
  iterators : List String
  owner : String

namespace Scope

def resolve (s : Scope) (name : String) : Resolved Affine :=
  match param? s.params name with
  | some v => .ok (Affine.ofInt v)
  | none =>
    if s.iterators.contains name then .ok (Affine.var name)
    else refuse (.unknownName name s.owner)

def affine (s : Scope) (text : String) : Resolved Affine := do
  let f ← (Affine.parse text).mapRefusal .badAffine
  f.tryBind s.resolve

def affines (s : Scope) : List String → Resolved (List Affine)
  | [] => .ok []
  | t :: ts => do
    let f ← s.affine t
    let fs ← s.affines ts
    return f :: fs

end Scope

def extent (s : Scope) (buffer : String) (dim : Nat) (text : String) : Resolved Nat := do
  let f ← s.affine text
  match f.constant? with
  | some n =>
    if 0 < n && n ≤ Decimal.word32Max then return n.toNat else refuse (.badShape buffer dim)
  | none => refuse (.badShape buffer dim)

def extents (s : Scope) (buffer : String) : Nat → List String → Resolved (List Nat)
  | _, [] => .ok []
  | dim, t :: ts => do
    let n ← extent s buffer dim t
    let ns ← extents s buffer (dim + 1) ts
    return n :: ns

def resolveBuffer (params : List (String × Int)) (b : Buffer) : Resolved LoopNest.Buffer := do
  let shape ← extents ⟨params, [], "buffer " ++ ticked b.name⟩ b.name 0 b.shape
  if product shape ≤ 9223372036854775807 then
    return { name := b.name, shape, dtype := b.dtype, kind := b.kind }
  else refuse (.oversizedBuffer b.name)

def resolveBuffers (params : List (String × Int)) :
    List LoopNest.Buffer → List Buffer → Resolved (List LoopNest.Buffer)
  | done, [] => .ok done
  | done, b :: rest => do
    let buffer ← resolveBuffer params b
    -- a faulty shape is reported before a repeated name
    if done.any fun d => d.name == b.name then refuse (.duplicateName "buffer" b.name)
    else resolveBuffers params (done ++ [buffer]) rest

def resolveAccess (s : Scope) (buffers : List LoopNest.Buffer) (a : Access) :
    Resolved LoopNest.Access :=
  match position? (fun b => b.name == a.buffer) buffers with
  | none => refuse (.unknownBuffer a.buffer)
  | some i => do
    let rank := match buffers[i]? with
      | some b => b.shape.length
      | none => 0
    if rank ≠ a.indices.length then refuse (.rankMismatch a.buffer rank a.indices.length)
    else
      let indices ← s.affines a.indices
      return { buffer := i, indices }

def binOp? : String → Option Operator
  | "+" | "add" => some .add
  | "-" | "sub" => some .sub
  | "*" | "mul" => some .mul
  | "/" | "div" => some .div
  | "min" => some .min
  | "max" => some .max
  | _ => none

def intrinsic? : String → Option Intrinsic
  | "sqrt" => some .sqrt
  | "exp" => some .exp
  | "abs" => some .abs
  | _ => none

def resolveExpr (s : Scope) (buffers : List LoopNest.Buffer) : Expr → Resolved LoopNest.Expr
  | .const v => .ok (.const v)
  | .iter name =>
    if s.iterators.contains name then .ok (.iter name) else refuse (.unknownName name s.owner)
  | .load a => do
    let a ← resolveAccess s buffers a
    return .load a
  | .binary op l r =>
    match binOp? op with
    | none => refuse (.unsupportedOperator op)
    | some op => do
      let l ← resolveExpr s buffers l
      let r ← resolveExpr s buffers r
      return .binary op l r
  | .neg e => do
    let e ← resolveExpr s buffers e
    return .neg e
  | .call name args =>
    match intrinsic? name with
    | none => refuse (.unsupportedIntrinsic name)
    | some f =>
      match args with
      | [e] => do
        let e ← resolveExpr s buffers e
        return .call f e
      | _ => refuse (.arity name f.arity args.length)

def resolveDomain (s : Scope) : List Dimension → List Iterator → Resolved (List Dimension)
  | done, [] => .ok done
  | done, i :: rest => do
    let names := done.map Dimension.name
    if names.contains i.name || (param? s.params i.name).isSome then
      refuse (.duplicateName "iterator" i.name)
    else
      let s' := { s with iterators := names }
      let lower ← s'.affine i.lower
      let upper ← s'.affine i.upper
      resolveDomain s (done ++ [{ name := i.name, lower, upper }]) rest

def renameBy (mine theirs : List Dimension) (name : String) : String :=
  match (mine.zip theirs).find? fun p => p.1.name == name with
  | some p => p.2.name
  | none => name

def sameBounds (rename : String → String) : List Dimension → List Dimension → Checked Bool
  | m :: ms, t :: ts => do
    let lower ← m.lower.bindVars fun a => .var (rename a)
    if lower ≠ t.lower then return false
    else
      let upper ← m.upper.bindVars fun a => .var (rename a)
      if upper ≠ t.upper then return false else sameBounds rename ms ts
  | _, _ => .ok true

def checkSharing (name : String) (domain : List Dimension) (other : LoopNest.Computation)
    (level : Nat) : Resolved Unit := do
  let incompatible : Resolved Unit :=
    -- the message counts loops, one more than the level
    if level = Decimal.word64Max then .error (.fault .overflow)
    else refuse (.incompatibleSharedLoops name other.name (level + 1))
  if domain.length ≤ level || other.domain.length ≤ level then incompatible
  else
    let mine := domain.take (level + 1)
    let theirs := other.domain.take (level + 1)
    let same ← sameBounds (renameBy mine theirs) mine theirs
    if same then return () else incompatible

def resolveAfter (name : String) (domain : List Dimension) (earlier : List LoopNest.Computation) :
    Option After → Resolved (Option (Nat × Nat))
  | none => .ok none
  | some a =>
    match position? (fun c => c.name == a.computation) earlier with
    | none => refuse (.unknownComputation a.computation)
    | some i =>
      match earlier[i]? with
      | none => refuse (.unknownComputation a.computation)
      | some other => do
        checkSharing name domain other a.level
        return some (i, a.level)

def resolveComputation (params : List (String × Int)) (buffers : List LoopNest.Buffer)
    (earlier : List LoopNest.Computation) (c : Computation) : Resolved LoopNest.Computation := do
  let owner := "computation " ++ ticked c.name
  let domain ← resolveDomain ⟨params, [], owner⟩ [] c.iterators
  let s : Scope := ⟨params, domain.map Dimension.name, owner⟩
  let store ← resolveAccess s buffers c.store
  if (buffers[store.buffer]?.map LoopNest.Buffer.kind) == some .input then
    refuse (.writeToInput c.name c.store.buffer)
  else
    let expr ← resolveExpr s buffers c.expr
    let after ← resolveAfter c.name domain earlier c.after
    return { name := c.name, domain, expr, store, after }

def resolveComputations (params : List (String × Int)) (buffers : List LoopNest.Buffer) :
    List LoopNest.Computation → List Computation → Resolved (List LoopNest.Computation)
  | done, [] => .ok done
  | done, c :: rest => do
    let computation ← resolveComputation params buffers done c
    -- the computation is resolved first, so its own faults win over its name
    if done.any fun d => d.name == c.name then refuse (.duplicateName "computation" c.name)
    else resolveComputations params buffers (done ++ [computation]) rest

def build (d : Description) : Resolved Program :=
  if d.computations.isEmpty then refuse .emptyProgram
  else do
    let buffers ← resolveBuffers d.params [] d.buffers
    let computations ← resolveComputations d.params buffers [] d.computations
    return { name := d.name, params := d.params, buffers, computations }

end Description

end LoopNest

import LoopNest.Outcome
import LoopNest.Arithmetic
import LoopNest.Word

namespace LoopNest

structure KernelForm where
  terms : List (Nat × Int)
  constant : Int
  deriving DecidableEq

structure Place where
  buffer : Nat
  indices : List (KernelForm × Nat × Nat)

inductive KernelExpr where
  | const (v : Float)
  | slot (f : KernelForm)
  | load (n : Nat)
  | binary (op : Operator) (lhs rhs : KernelExpr)
  | neg (arg : KernelExpr)
  | call (f : Intrinsic) (arg : KernelExpr)

/-- One computation in its place: `load n` in the value stands for the `n`-th read. -/
structure Statement where
  computation : Nat
  iterators : List KernelForm
  reads : List Place
  store : Place
  value : KernelExpr

/-- `number` tells the loops of a kernel apart. -/
structure Range where
  number : Nat
  dim : String
  lower : KernelForm
  upper : KernelForm
  clamp : Option KernelForm
  concurrent : Bool

inductive Kernel.Node where
  | loop (range : Range) (body : List Kernel.Node)
  | leaf (s : Statement)

structure Kernel where
  body : List Kernel.Node
  loops : Nat

abbrev Env : Type := List Int

namespace KernelForm

def evalTerms (env : Env) : Int → List (Nat × Int) → Checked Int
  | total, [] => .ok total
  | total, (slot, coeff) :: ts => do
    let p ← Word.mul coeff (env.getD slot 0)
    let total ← Word.add total p
    evalTerms env total ts

def eval (f : KernelForm) (env : Env) : Checked Int := evalTerms env f.constant f.terms

def evalAll (env : Env) : List KernelForm → Checked (List Int)
  | [] => .ok []
  | f :: fs => do
    let v ← f.eval env
    let vs ← evalAll env fs
    return v :: vs

end KernelForm

namespace Place

def offsetFrom (env : Env) : Nat → List (KernelForm × Nat × Nat) → Checked (Option Nat)
  | total, [] => .ok (some total)
  | total, (f, extent, stride) :: rest => do
    let v ← f.eval env
    if v < 0 ∨ (extent : Int) ≤ v then return none
    else offsetFrom env (total + v.toNat * stride) rest

def offset (p : Place) (env : Env) : Checked (Option Nat) := offsetFrom env 0 p.indices

end Place

namespace KernelExpr

variable {V : Type}

def eval (A : Arithmetic V) (loaded : Array V) (env : Env) : KernelExpr → Checked V
  | const v => .ok (A.ofConst v)
  | slot f => do
    let n ← f.eval env
    return A.ofInt n
  | load n => .ok (loaded.getD n A.zero)
  | binary op l r => do
    let a ← l.eval A loaded env
    let b ← r.eval A loaded env
    return A.binary op a b
  | neg e => do
    let a ← e.eval A loaded env
    return A.neg a
  | call f e => do
    let a ← e.eval A loaded env
    return A.call f a

end KernelExpr

namespace Range

def bounds (r : Range) (env : Env) : Checked (Int × Int) := do
  let lower ← r.lower.eval env
  let upper ← r.upper.eval env
  match r.clamp with
  | none => return (lower, upper)
  | some c => do
    let clamp ← c.eval env
    return (lower, min upper clamp)

end Range

end LoopNest

import LoopNest.Affine.Basic

namespace LoopNest

structure Tags where
  parallel : Bool := false
  vectorize : Option Nat := none
  unroll : Option Nat := none
  deriving DecidableEq

structure Header where
  dim : String
  lower : Affine
  upper : Affine
  clamp : Option Affine := none
  tags : Tags := {}
  deriving DecidableEq

structure Leaf where
  computation : Nat
  bindings : List Affine
  deriving DecidableEq

inductive Node where
  | loop (header : Header) (children : List Node)
  | leaf (l : Leaf)

namespace Header

def hasTags (h : Header) : Bool := h.tags != {}

def isConcurrent (h : Header) : Bool := h.tags.parallel || h.tags.vectorize.isSome

def limits (h : Header) : List Affine := h.lower :: h.upper :: h.clamp.toList

def unclampedExtent? (h : Header) : Checked (Option Int) := do
  let d ← h.upper.sub h.lower
  return d.constant?

def fixedExtent? (h : Header) : Checked (Option Int) :=
  if h.clamp.isSome then .ok none else h.unclampedExtent?

end Header

namespace Node

def isLeaf : Node → Bool
  | leaf _ => true
  | loop _ _ => false

mutual

def loops (depth : Nat) : Node → List (Nat × Header × List Node)
  | leaf _ => []
  | loop h body => (depth, h, body) :: loopsAll (depth + 1) body

def loopsAll (depth : Nat) : List Node → List (Nat × Header × List Node)
  | [] => []
  | n :: ns => n.loops depth ++ loopsAll depth ns

end

mutual

def leaves : Node → List Leaf
  | leaf l => [l]
  | loop _ body => leavesAll body

def leavesAll : List Node → List Leaf
  | [] => []
  | n :: ns => n.leaves ++ leavesAll ns

end

mutual

def size : Node → Nat
  | leaf _ => 1
  | loop _ body => 1 + sizeAll body

def sizeAll : List Node → Nat
  | [] => 0
  | n :: ns => n.size + sizeAll ns

end

def onlyLeaves (body : List Node) : Bool := body.all isLeaf

def loopDims (roots : List Node) : List String := (loopsAll 0 roots).map fun l => l.2.1.dim

def containsParallel (body : List Node) : Bool := (loopsAll 0 body).any fun l => l.2.1.tags.parallel

mutual

def substitute (m : String → Affine) : Node → Checked Node
  | leaf l => do
    let bindings ← substituteForms m l.bindings
    return leaf { l with bindings }
  | loop h body => do
    let lower ← h.lower.bindVars m
    let upper ← h.upper.bindVars m
    let clamp ← match h.clamp with
      | none => .ok none
      | some c => (c.bindVars m).map some
    let body ← substituteAll m body
    return loop { h with lower, upper, clamp } body

def substituteAll (m : String → Affine) : List Node → Checked (List Node)
  | [] => .ok []
  | n :: ns => do
    let n ← n.substitute m
    let ns ← substituteAll m ns
    return n :: ns

def substituteForms (m : String → Affine) : List Affine → Checked (List Affine)
  | [] => .ok []
  | f :: fs => do
    let f ← f.bindVars m
    let fs ← substituteForms m fs
    return f :: fs

end

end Node

end LoopNest

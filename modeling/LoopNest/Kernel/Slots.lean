import LoopNest.Kernel.Numbering
import LoopNest.Kernel.Walk

/-!
Kernels with a slot for every loop. A form refers to its loops by their slots, and a walk keeps one vector of values
for all of them, in which the last value of a loop stays when the loop has ended. The activations of concurrent loops
are counted.
-/

namespace LoopNest.Slots

-- the names with their slots, innermost first
abbrev Scope : Type := List (String × Nat)

def terms (scope : Scope) : List Term → Numbered (List (Nat × Int))
  | [] => .ok []
  | t :: ts =>
    match scope.lookup t.atom with
    | none => Outcome.refuse (.unbound t.atom)
    | some slot => do
      let rest ← terms scope ts
      return (slot, t.coeff) :: rest

def form (scope : Scope) (f : Affine) : Numbered KernelForm := do
  let terms ← terms scope f.terms
  return { terms, constant := f.constant }

def forms (scope : Scope) : List Affine → Numbered (List KernelForm)
  | [] => .ok []
  | f :: fs => do
    let g ← form scope f
    let gs ← forms scope fs
    return g :: gs

def clampForm (scope : Scope) : Option Affine → Numbered (Option KernelForm)
  | none => .ok none
  | some c => do
    let f ← form scope c
    return some f

def statement (p : Program) (scope : Scope) (l : Leaf) : Numbered Statement := do
  match p.computations[l.computation]? with
  | none => Except.error (.fault .indexOutOfRange)
  | some c =>
    let iterators ← forms scope l.bindings
    Numbering.statementOf p l.computation c iterators

mutual

/-- The node with slots for names; `names` has the loops that have a slot already, in the order of their slots. -/
def node (p : Program) (scope : Scope) (names : List String) : Node → Numbered (Kernel.Node × List String)
  | .leaf l => do
    let s ← statement p scope l
    return (.leaf s, names)
  | .loop h body => do
    let lower ← form scope h.lower
    let upper ← form scope h.upper
    let clamp ← clampForm scope h.clamp
    let slot := names.length
    let range : Range := { number := slot, dim := h.dim, lower, upper, clamp, concurrent := h.isConcurrent }
    let (body, names) ← nodes p ((h.dim, slot) :: scope) (names ++ [h.dim]) body
    return (.loop range body, names)

def nodes (p : Program) (scope : Scope) (names : List String) :
    List Node → Numbered (List Kernel.Node × List String)
  | [] => .ok ([], names)
  | n :: ns => do
    let (n, names) ← node p scope names n
    let (ns, names) ← nodes p scope names ns
    return (n :: ns, names)

end

structure Kernel where
  body : List Kernel.Node
  names : List String

def Kernel.ofTree (p : Program) (roots : List Node) : Numbered Kernel := do
  let (body, names) ← nodes p [] [] roots
  return { body, names }

structure Iteration where
  slot : Nat
  activation : Nat
  value : Int

structure Instance where
  statement : Statement
  slots : List Int
  concurrent : List Iteration

structure Walker where
  slots : List Int
  concurrent : List Iteration
  activations : Nat

namespace Walker

def enter (w : Walker) (r : Range) (lower : Int) : Walker :=
  if r.concurrent then
    { w with
      activations := w.activations + 1
      concurrent := w.concurrent ++ [⟨r.number, w.activations + 1, lower⟩] }
  else w

def next (w : Walker) (r : Range) (v : Int) : Walker :=
  { w with
    slots := w.slots.set r.number v
    concurrent :=
      if r.concurrent then w.concurrent.dropLast ++ w.concurrent.getLast?.toList.map ({ · with value := v })
      else w.concurrent }

def leave (w : Walker) (r : Range) : Walker :=
  if r.concurrent then { w with concurrent := w.concurrent.dropLast } else w

end Walker

variable {ε σ : Type}

mutual

def walkNode (visit : Instance → σ → Outcome ε σ) : LoopNest.Kernel.Node → Walker × σ → Outcome ε (Walker × σ)
  | .leaf st, (w, s) => do
    let s ← visit ⟨st, w.slots, w.concurrent⟩ s
    return (w, s)
  | .loop r body, (w, s) => do
    let (lower, upper) ← r.bounds w.slots
    let (w, s) ← LoopNest.Kernel.forEach (fun v t => walkNodes visit body (t.1.next r v, t.2)) (upper - lower).toNat
      lower (w.enter r lower, s)
    return (w.leave r, s)

def walkNodes (visit : Instance → σ → Outcome ε σ) :
    List LoopNest.Kernel.Node → Walker × σ → Outcome ε (Walker × σ)
  | [], t => .ok t
  | n :: ns, t => do
    let t ← walkNode visit n t
    walkNodes visit ns t

end

def Kernel.walk (k : Kernel) (visit : Instance → σ → Outcome ε σ) (s : σ) : Outcome ε σ := do
  let (_, s) ← walkNodes visit k.body (⟨List.replicate k.names.length 0, [], 0⟩, s)
  return s

end LoopNest.Slots

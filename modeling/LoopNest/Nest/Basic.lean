import LoopNest.Dataflow.Legality
import LoopNest.Transform.Effect
import LoopNest.Tree.Printer

namespace LoopNest

structure Nest where
  roots : List Node
  applied : Schedule := []
  cost : Option Float := none

inductive DeriveError where
  | transform (e : TransformError)
  | illegal (i : Illegality)
  deriving DecidableEq

def DeriveError.message : DeriveError → String
  | transform e => e.message
  | illegal i => "illegal schedule: " ++ i.message

abbrev Derived (α : Type) : Type := Outcome DeriveError α

inductive CostError where
  | notEvaluated
  | alreadyEvaluated
  deriving DecidableEq

def CostError.message : CostError → String
  | notEvaluated => "tree has not been evaluated"
  | alreadyEvaluated => "tree already carries an evaluation"

namespace Nest

def initial (c : Context) : Checked Nest := do
  let roots ← c.program.nesting
  return { roots }

def depth (n : Nest) : Nat := n.applied.length

def derive (c : Context) (n : Nest) (t : Transformation) : Derived Nest := do
  let roots ← (t.applyTo c.program n.roots).mapRefusal .transform
  (c.checkLegal roots).mapRefusal .illegal
  return { roots, applied := n.applied ++ [t] }

def deriveAll (c : Context) : Nest → Schedule → Derived Nest
  | n, [] => .ok n
  | n, t :: ts => do
    let n ← n.derive c t
    deriveAll c n ts

def replay (c : Context) (s : Schedule) : Derived Nest := do
  let n ← initial c
  deriveAll c n s

def text (c : Context) (n : Nest) : Checked String := Node.textAll c.program 0 n.roots

def structureText (c : Context) (n : Nest) : Checked String := n.text c

def knownCost (n : Nest) : Except CostError Float :=
  match n.cost with
  | some x => .ok x
  | none => .error .notEvaluated

def withCost (n : Nest) (x : Float) : Except CostError Nest :=
  match n.cost with
  | some _ => .error .alreadyEvaluated
  | none => .ok { n with cost := some x }

theorem applied_derive {c : Context} {n m : Nest} {t : Transformation} (h : n.derive c t = .ok m) :
    m.applied = n.applied ++ [t] := by
  obtain ⟨roots, _, h⟩ := bind_eq_ok.1 h
  obtain ⟨_, _, h⟩ := bind_eq_ok.1 h
  cases h
  rfl

theorem applied_deriveAll {c : Context} {n m : Nest} {s : Schedule} (h : deriveAll c n s = .ok m) :
    m.applied = n.applied ++ s := by
  induction s generalizing n with
  | nil =>
    cases h
    simp
  | cons t ts ih =>
    obtain ⟨next, hn, h⟩ := bind_eq_ok.1 h
    rw [ih h, applied_derive hn, List.append_assoc]
    rfl

def leafCounts (c : Context) (n : Nest) : List Nat :=
  let leaves := (Node.leavesAll n.roots).map Leaf.computation
  (List.range c.program.computations.length).map fun i => leaves.count i

end Nest

end LoopNest

import LoopNest.Kernel.Basic

namespace LoopNest

/-- An iteration of a concurrent loop, in the activation given by the values `around` it. -/
structure Iteration where
  loop : Nat
  dim : String
  around : Env
  value : Int
  deriving DecidableEq

structure Instance where
  statement : Statement
  env : Env
  concurrent : List Iteration

def Range.inside (r : Range) (env : Env) (concurrent : List Iteration) (v : Int) : List Iteration :=
  if r.concurrent then concurrent ++ [⟨r.number, r.dim, env, v⟩] else concurrent

namespace Kernel

variable {ε σ : Type}

def forEach (step : Int → σ → Outcome ε σ) : Nat → Int → σ → Outcome ε σ
  | 0, _, s => .ok s
  | count + 1, v, s => do
    let s ← step v s
    forEach step count (v + 1) s

mutual

def walkNode (visit : Instance → σ → Outcome ε σ) (env : Env) (concurrent : List Iteration) :
    Node → σ → Outcome ε σ
  | .leaf st, s => visit ⟨st, env, concurrent⟩ s
  | .loop r body, s => do
    let (lower, upper) ← r.bounds env
    forEach (fun v s => walkNodes visit (v :: env) (r.inside env concurrent v) body s)
      (upper - lower).toNat lower s

def walkNodes (visit : Instance → σ → Outcome ε σ) (env : Env) (concurrent : List Iteration) :
    List Node → σ → Outcome ε σ
  | [], s => .ok s
  | n :: ns, s => do
    let s ← walkNode visit env concurrent n s
    walkNodes visit env concurrent ns s

end

def walk (k : Kernel) (visit : Instance → σ → Outcome ε σ) (s : σ) : Outcome ε σ :=
  walkNodes visit [] [] k.body s

end Kernel

def Instance.point (i : Instance) : Checked (List Int) := KernelForm.evalAll i.env i.statement.iterators

end LoopNest

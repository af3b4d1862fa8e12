import LoopNest.Evaluation.Basic

/-!
Scoring nests by building and timing them. Built kernels are kept by the text of the schedule they were
built from, the oldest build going first when there are too many; a failed build is not kept.
-/

namespace LoopNest

structure Backend (K : Type) where
  name : String
  build : Nest → Except BackendError K
  /-- The nanoseconds of each of a number of runs. -/
  measure : K → Nat → Except BackendError (List Nat)

structure TimingPlan where
  runs : Nat
  reduction : Reduction := .min
  expired : Bool := false

/-- A cell for every key, empty while its kernel is being built, and apart from the cells the keys of the built
kernels in the order of their builds, oldest first. -/
structure KernelCache (K : Type) where
  capacity : Nat := 256
  kernels : List (String × Option K) := []
  order : List String := []
  builds : Nat := 0

namespace KernelCache

variable {K : Type}

def room (c : KernelCache K) : Nat := max c.capacity 1

def cell (c : KernelCache K) (key : String) : KernelCache K × Option K :=
  match c.kernels.lookup key with
  | some slot => (c, slot)
  | none => ({ c with kernels := c.kernels ++ [(key, none)] }, none)

def fill (c : KernelCache K) (key : String) (k : K) : KernelCache K :=
  { c with kernels := c.kernels.map fun slot => if slot.1 == key then (key, some k) else slot }

def remove (c : KernelCache K) (key : String) : KernelCache K :=
  { c with kernels := c.kernels.filter fun slot => slot.1 != key }

def evict (c : KernelCache K) : List String → KernelCache K
  | [] => { c with order := [] }
  | oldest :: rest =>
    if c.room < rest.length + 1 then (c.remove oldest).evict rest else { c with order := oldest :: rest }

def remember (c : KernelCache K) (key : String) : KernelCache K := c.evict (c.order ++ [key])

def kernel (b : Backend K) (c : KernelCache K) (n : Nest) : KernelCache K × Except BackendError K :=
  let key := Schedule.text n.applied
  match c.cell key with
  | (c, some k) => (c, .ok k)
  | (c, none) =>
    let c := { c with builds := c.builds + 1 }
    match b.build n with
    | .ok k => ((c.fill key k).remember key, .ok k)
    -- the key of a failed build is in the map and not in the queue
    | .error e => (c.remove key, .error e)

def scoreTimes (cfg : TimingPlan) : Except BackendError (List Nat) → Except EvaluationError Float
  | .ok times =>
    match cfg.reduction.reduce times with
    | some x => .ok x
    | none => .error (.internal "backend returned no measurements")
  | .error .timeout => .ok worstCost
  | .error (.kernel cause) => .error (.kernelRun cause)
  | .error (.harness cause) => .error (.internal cause)

def evaluate (b : Backend K) (cfg : TimingPlan) (c : KernelCache K) (n : Nest) :
    KernelCache K × Except EvaluationError Float :=
  match c.kernel b n with
  | (c, .ok k) =>
    (c, if cfg.expired then .ok worstCost else scoreTimes cfg (b.measure k (max cfg.runs 1)))
  | (c, .error .timeout) => (c, .ok worstCost)
  | (c, .error (.kernel cause)) => (c, .error (.kernelBuild cause))
  | (c, .error (.harness cause)) => (c, .error (.internal cause))

end KernelCache

end LoopNest

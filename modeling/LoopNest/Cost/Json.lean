import LoopNest.Cost.Estimate
import LoopNest.Decimal.Integer
import LoopNest.Json.Reader

namespace LoopNest.Machine

open LoopNest.Json (asNat? asFloat?)

def withField (m : Machine) (name : String) (j : Json) : Option Machine :=
  match name with
  | "processors" => (asNat? Decimal.word32Max j).map fun n => { m with processors := n }
  | "vector_bytes" => (asNat? Decimal.word32Max j).map fun n => { m with vectorBytes := n }
  | "cache_bytes" => (asNat? Decimal.word64Max j).map fun n => { m with cacheBytes := n }
  | "line_bytes" => (asNat? Decimal.word64Max j).map fun n => { m with lineBytes := n }
  | "op_cost" => (asFloat? j).map fun x => { m with opCost := x }
  | "miss_cost" => (asFloat? j).map fun x => { m with missCost := x }
  | "loop_overhead" => (asFloat? j).map fun x => { m with loopOverhead := x }
  | "parallel_overhead" => (asFloat? j).map fun x => { m with parallelOverhead := x }
  | _ => some m

def withFields : Machine → List (String × Json) → Option Machine
  | m, [] => some m
  | m, (name, j) :: rest => do
    let m ← m.withField name j
    withFields m rest

def override? (m : Machine) : Json → Option Machine
  | .obj fields => m.withFields fields
  | _ => none

end LoopNest.Machine

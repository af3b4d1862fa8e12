import LoopNest.Json.Basic

namespace LoopNest.Json

def asString? : Json → Option String
  | str s => some s
  | _ => none

def asInt? (lo hi : Int) : Json → Option Int
  | int n => if lo ≤ n && n ≤ hi then some n else none
  | _ => none

def asNat? (hi : Nat) (j : Json) : Option Nat := (j.asInt? 0 hi).map Int.toNat

def asFloat? : Json → Option Float
  | int n => some (Float.ofInt n)
  | float x => some x
  | _ => none

def asBool? : Json → Option Bool
  | bool b => some b
  | _ => none

def asList? : Json → Option (List Json)
  | arr js => some js
  | _ => none

def readAll {α : Type} (f : Json → Option α) : List Json → Option (List α)
  | [] => some []
  | j :: js => do
    let a ← f j
    let as ← readAll f js
    return a :: as

def listOf? {α : Type} (f : Json → Option α) (j : Json) : Option (List α) := do
  let js ← j.asList?
  readAll f js

def once? (name : String) (fields : List (String × Json)) : Option (Option Json) :=
  match fields.filter fun f => f.1 == name with
  | [] => some none
  | [f] => some (some f.2)
  | _ => none

def fieldValues? (fields : List (String × Json)) : List String → Option (List (Option Json))
  | [] => some []
  | n :: ns => do
    let v ← once? n fields
    let vs ← fieldValues? fields ns
    return v :: vs

def positional? : List String → List Json → Option (List (Option Json))
  | [], [] => some []
  | [], _ :: _ => none
  | _ :: ns, [] => (positional? ns []).map (none :: ·)
  | _ :: ns, j :: js => (positional? ns js).map (some j :: ·)

def named? (names : List String) : Json → Option (List (Option Json))
  | obj fields => fieldValues? fields names
  | _ => none

def record? (names : List String) : Json → Option (List (Option Json))
  | obj fields => fieldValues? fields names
  | arr items => positional? names items
  | _ => none

def word? : Json → Option String
  | str s => some s
  | obj [(s, null)] => some s
  | _ => none

end LoopNest.Json

import LoopNest.Tree.Basic

namespace LoopNest

abbrev Path : Type := List Nat

namespace Node

def at? : List Node → Path → Option Node
  | _, [] => none
  | ns, [i] => ns[i]?
  | ns, i :: rest =>
    match ns[i]? with
    | some (loop _ body) => at? body rest
    | _ => none

def loopAt? (ns : List Node) (p : Path) : Option (Header × List Node) :=
  match at? ns p with
  | some (loop h body) => some (h, body)
  | _ => none

def above : List Node → Path → List (Header × List Node)
  | _, [] => []
  | _, [_] => []
  | ns, i :: rest =>
    match ns[i]? with
    | some (loop h body) => (h, body) :: above body rest
    | _ => []

mutual

def pathWhere (p : Node → Bool) : Node → Option Path
  | leaf l => if p (leaf l) then some [] else none
  | loop h body =>
    if p (loop h body) then some [] else pathWhereAll p 0 body

def pathWhereAll (p : Node → Bool) (i : Nat) : List Node → Option Path
  | [] => none
  | n :: ns =>
    match n.pathWhere p with
    | some rest => some (i :: rest)
    | none => pathWhereAll p (i + 1) ns

end

def isLoopNamed (dim : String) : Node → Bool
  | loop h _ => h.dim == dim
  | leaf _ => false

def isLeafOf (computation : Nat) : Node → Bool
  | leaf l => l.computation == computation
  | loop _ _ => false

def loopPath? (roots : List Node) (dim : String) : Option Path :=
  pathWhereAll (isLoopNamed dim) 0 roots

def leafPath? (roots : List Node) (computation : Nat) : Option Path :=
  pathWhereAll (isLeafOf computation) 0 roots

def modifyAt (f : Node → Node) : Path → List Node → List Node
  | [], ns => ns
  | [i], ns => ns.modify i f
  | i :: rest, ns => ns.modify i fun
    | loop h body => loop h (modifyAt f rest body)
    | leaf l => leaf l

def setAt (n : Node) (p : Path) (ns : List Node) : List Node := modifyAt (fun _ => n) p ns

def setHeader (h : Header) (p : Path) (ns : List Node) : List Node :=
  modifyAt (fun
    | loop _ body => loop h body
    | leaf l => leaf l) p ns

def modifyChildren (f : List Node → List Node) : Path → List Node → List Node
  | [], ns => f ns
  | i :: rest, ns => ns.modify i fun
    | loop h body => loop h (modifyChildren f rest body)
    | leaf l => leaf l

/-- Removes the node at a path, and every loop that this leaves without children. -/
def detach : Path → List Node → List Node
  | [], ns => ns
  | [i], ns => ns.eraseIdx i
  | i :: rest, ns =>
    match ns[i]? with
    | some (loop h body) =>
      match detach rest body with
      | [] => ns.eraseIdx i
      | body' => ns.set i (loop h body')
    | _ => ns

def insertBehind (n : Node) : Path → List Node → List Node
  | [], ns => ns
  | [i], ns => ns.insertIdx (i + 1) n
  | i :: rest, ns => ns.modify i fun
    | loop h body => loop h (insertBehind n rest body)
    | leaf l => leaf l

end Node

end LoopNest

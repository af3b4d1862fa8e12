import LoopNest.Program.Basic
import LoopNest.Transform.Basic

namespace LoopNest

open Outcome (refuse)

def partsAt : Nat → Path → Path → Option Nat
  | 0, i :: _, j :: _ => if i = j then none else some 0
  | level + 1, i :: is, j :: js => if i = j then (partsAt level is js).map (· + 1) else some 0
  | _, _, _ => none

def renameLoop (pairs : List (String × String)) (v : String) : String :=
  match pairs.find? fun p => p.1 == v with
  | some p => p.2
  | none => v

def sameForm (m : String → Affine) (moved kept : Affine) : Checked Bool := do
  let f ← moved.bindVars m
  return f == kept

def sameClamp (m : String → Affine) : Option Affine → Option Affine → Checked Bool
  | none, none => .ok true
  | some moved, some kept => sameForm m moved kept
  | some moved, none => do
    -- the form is put together all the same, and may overflow
    let _ ← moved.bindVars m
    return false
  | none, some _ => .ok false

def sameHeader (m : String → Affine) (moved kept : Header) : Checked Bool := do
  if !(← sameForm m moved.lower kept.lower) then return false
  else if !(← sameForm m moved.upper kept.upper) then return false
  else sameClamp m moved.clamp kept.clamp

def checkMatched (t : Transformation) (m : String → Affine) : List (Header × Header) → Transformed Unit
  | [] => .ok ()
  | (kept, moved) :: rest =>
    if kept.hasTags || moved.hasTags then refuse (.notApplicable t .tagged)
    else do
      let same ← sameHeader m moved kept
      if same then checkMatched t m rest
      else refuse (.notApplicable t (.boundsDiffer kept.dim moved.dim))

def leafPath (roots : List Node) (name : String) (computation : Nat) : Transformed Path :=
  Outcome.require (Node.leafPath? roots computation) (.unknownComputation name)

/-- Moves the node at `branchPath` behind the child of the loop at depth `level` that holds `computation`. -/
def moveBranch (roots : List Node) (m : String → Affine) (name : String) (computation : Nat)
    (branchPath : Path) (level : Nat) : Transformed (List Node) :=
  match Node.at? roots branchPath with
  | none => refuse (.unknownComputation name)
  | some branch => do
    let branch ← branch.substitute m
    let roots := Node.detach branchPath roots
    -- with the branch gone the other leaf may have another path
    let path ← leafPath roots name computation
    return Node.insertBehind branch (path.take (level + 2)) roots

def fuse (p : Program) (roots : List Node) (first second dim : String) : Transformed (List Node) := do
  let t := Transformation.fuse first second dim
  let a ← Outcome.require (p.computationPosition? first) (.unknownComputation first)
  let b ← Outcome.require (p.computationPosition? second) (.unknownComputation second)
  if a = b then refuse (.notApplicable t .selfFusion)
  else
    let aPath ← leafPath roots first a
    let bPath ← leafPath roots second b
    let (dimPath, _, _) ← namedLoop roots dim
    if !(dimPath.length < aPath.length && dimPath.isPrefixOf aPath) then
      refuse (.notApplicable t (.notEnclosing dim first))
    else
      let level := dimPath.length - 1
      if bPath.length < level + 2 then refuse (.notApplicable t (.tooShallow second (level + 1)))
      else match partsAt level aPath bPath with
        | none => refuse (.notApplicable t .alreadyShared)
        | some depth =>
          -- the loops above `depth` are shared already
          let headers path := ((Node.above roots path).map Prod.fst).take (level + 1) |>.drop depth
          let matched := (headers aPath).zip (headers bPath)
          let pairs := matched.map fun (kept, moved) => (moved.dim, kept.dim)
          let m := fun v => Affine.var (renameLoop pairs v)
          checkMatched t m matched
          moveBranch roots m first a (bPath.take (level + 2)) level

end LoopNest

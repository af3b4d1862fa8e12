import LoopNest.Transform.Basic

namespace LoopNest

open Outcome (refuse)

def chain (roots : List Node) (outer inner : Path) : List (Header × List Node) :=
  (Node.above roots inner).drop (outer.length - 1) ++ (Node.loopAt? roots inner).toList

def mentions (h : Header) (dim : String) : Bool := h.limits.any fun f => f.mentions dim

def firstMentioned (h : Header) : List (Header × List Node) → Option String
  | [] => none
  | l :: ls => if mentions h l.1.dim then some l.1.dim else firstMentioned h ls

def firstMentioning (dim : String) : List (Header × List Node) → Option String
  | [] => none
  | l :: ls => if mentions l.1 dim then some l.1.dim else firstMentioning dim ls

def interchangeAt (roots : List Node) (t : Transformation) (outerPath innerPath : Path) :
    Transformed (List Node) :=
  let loops := chain roots outerPath innerPath
  match loops.dropLast, loops.getLast? with
  | (outer, outerBody) :: mids, some (inner, _) =>
    let above := (outer, outerBody) :: mids
    if above.any fun l => l.2.length != 1 then refuse (.notApplicable t .notPerfectlyNested)
    else if outer.hasTags || inner.hasTags then refuse (.notApplicable t .tagged)
    else match firstMentioned inner above with
      | some dim => refuse (.notApplicable t (.boundsDepend inner.dim dim))
      | none =>
        match firstMentioning outer.dim mids with
        | some dim => refuse (.notApplicable t (.boundsDepend dim outer.dim))
        | none => .ok (Node.setHeader outer innerPath (Node.setHeader inner outerPath roots))
  | _, _ => refuse (.notApplicable t .notNested)

def interchange (roots : List Node) (first second : String) : Transformed (List Node) := do
  let t := Transformation.interchange first second
  let (firstPath, _, _) ← namedLoop roots first
  let (secondPath, _, _) ← namedLoop roots second
  if firstPath.length < secondPath.length && firstPath.isPrefixOf secondPath then
    interchangeAt roots t firstPath secondPath
  else if secondPath.length < firstPath.length && secondPath.isPrefixOf firstPath then
    interchangeAt roots t secondPath firstPath
  else refuse (.notApplicable t .notNested)

end LoopNest

import LoopNest.Transform.Basic
import LoopNest.Text.Name
import LoopNest.Word

namespace LoopNest

open Outcome (refuse)

def ceilDiv (n d : Int) : Int := (n + d - 1) / d

structure FixedRange where
  lower : Int
  extent : Int

def FixedRange.tiles (s : FixedRange) (factor : Int) : Int := ceilDiv s.extent factor

def fixedRange (t : Transformation) (h : Header) : Transformed FixedRange :=
  if h.clamp.isSome then refuse (.notApplicable t .remainderTile)
  else match h.lower.constant? with
    | none => refuse (.notApplicable t .lowerNotConstant)
    | some lower => do
      match ← h.fixedExtent? with
      | none => refuse (.notApplicable t .extentNotConstant)
      | some extent => return ⟨lower, extent⟩

def tileValue (outer inner : String) (factor lower : Int) : Checked Affine := do
  let scaled ← (Affine.var outer).scale factor
  let both ← scaled.add (.var inner)
  both.addConstant lower

def remainder (outer : String) (factor extent : Int) : Checked (Option Affine) :=
  if extent % factor = 0 then .ok none
  else do
    let scaled ← (Affine.var outer).scale factor
    let rest ← (Affine.ofInt extent).sub scaled
    return some rest

def split (taken : List String) (h : Header) (body : List Node) (s : FixedRange) (factor : Int)
    (tags : Tags) : Checked Node := do
  let outer := Name.fresh (h.dim ++ "0") taken
  let inner := Name.fresh (h.dim ++ "1") (outer :: taken)
  let value ← tileValue outer inner factor s.lower
  let body ← Node.substituteAll (fun v => if v = h.dim then value else .var v) body
  let clamp ← remainder outer factor s.extent
  let innerHeader : Header :=
    { dim := inner, lower := .zero, upper := .ofInt factor, clamp, tags }
  -- a loop that is split has no tags, so the outer loop gets none
  return .loop { h with dim := outer, lower := .zero, upper := .ofInt (s.tiles factor) }
    [.loop innerHeader body]

def splitAt (roots : List Node) (path : Path) (h : Header) (body : List Node) (s : FixedRange)
    (factor : Int) (tags : Tags) : Transformed (List Node) := do
  let n ← split (Node.loopDims roots) h body s factor tags
  return Node.setAt n path roots

def tile (roots : List Node) (dim : String) (factor : Nat) : Transformed (List Node) := do
  let t := Transformation.tile dim factor
  let (path, h, body) ← namedLoop roots dim
  if h.hasTags then refuse (.notApplicable t .alreadyTagged)
  else
    let s ← fixedRange t h
    if (factor : Int) ≤ 1 ∨ s.extent ≤ factor then
      -- the refusal names the largest factor
      let most ← Word.sub s.extent 1
      refuse (.notApplicable t (.factorRange most))
    else splitAt roots path h body s factor {}

/-- The loop itself is tagged when `factor` is its whole extent; then a clamp does no harm. -/
def tagOrSplit (roots : List Node) (t : Transformation) (path : Path) (h : Header)
    (body : List Node) (factor : Nat) (range : Int → Obstacle) (tags : Tags) :
    Transformed (List Node) := do
  match ← h.unclampedExtent? with
  | none => refuse (.notApplicable t .extentNotConstant)
  | some extent =>
    if (factor : Int) ≤ 1 ∨ extent < factor then refuse (.notApplicable t (range extent))
    else if (factor : Int) = extent then
      return Node.setAt (.loop { h with tags } body) path roots
    else
      let s ← fixedRange t h
      splitAt roots path h body s factor tags

def unroll (roots : List Node) (dim : String) (factor : Nat) : Transformed (List Node) := do
  let t := Transformation.unroll dim factor
  let (path, h, body) ← namedLoop roots dim
  if h.hasTags then refuse (.notApplicable t .alreadyTagged)
  else tagOrSplit roots t path h body factor .factorRange { unroll := some factor }

def vectorize (roots : List Node) (dim : String) (factor : Nat) : Transformed (List Node) := do
  let t := Transformation.vectorize dim factor
  let (path, h, body) ← namedLoop roots dim
  if !Node.onlyLeaves body then refuse (.notApplicable t .notInnermost)
  else if h.hasTags then refuse (.notApplicable t .alreadyTagged)
  else tagOrSplit roots t path h body factor .widthRange { vectorize := some factor }

def parallelize (roots : List Node) (dim : String) : Transformed (List Node) := do
  let t := Transformation.parallelize dim
  let (path, h, body) ← namedLoop roots dim
  if (Node.above roots path).any fun l => l.1.tags.parallel then
    refuse (.notApplicable t .enclosingParallel)
  else if h.tags.parallel then refuse (.notApplicable t .alreadyParallel)
  else if h.tags.vectorize.isSome then refuse (.notApplicable t .vectorized)
  else if Node.containsParallel body then refuse (.notApplicable t .enclosedParallel)
  else return Node.setHeader { h with tags := { h.tags with parallel := true } } path roots

end LoopNest

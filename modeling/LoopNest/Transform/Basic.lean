import LoopNest.Outcome
import LoopNest.Schedule.Basic
import LoopNest.Tree.Path

namespace LoopNest

inductive Obstacle where
  | alreadyTagged
  | remainderTile
  | lowerNotConstant
  | extentNotConstant
  | factorRange (most : Int)
  | widthRange (most : Int)
  | enclosingParallel
  | alreadyParallel
  | vectorized
  | enclosedParallel
  | notInnermost
  | notNested
  | notPerfectlyNested
  | tagged
  | boundsDepend (inner outer : String)
  | selfFusion
  | notEnclosing (dim computation : String)
  | tooShallow (computation : String) (levels : Nat)
  | alreadyShared
  | boundsDiffer (first second : String)
  deriving DecidableEq

inductive TransformError where
  | unknownLoop (dim : String)
  | unknownComputation (name : String)
  | notApplicable (t : Transformation) (o : Obstacle)
  deriving DecidableEq

def Obstacle.message : Obstacle → String
  | alreadyTagged => "loop is already tagged"
  | remainderTile => "loop is a remainder tile"
  | lowerNotConstant => "lower bound is not constant"
  | extentNotConstant => "extent is not constant"
  | factorRange most => "factor must be between 2 and " ++ toString most
  | widthRange most => "width must be between 2 and " ++ toString most
  | enclosingParallel => "an enclosing loop is parallel"
  | alreadyParallel => "loop is already parallel"
  | vectorized => "loop is vectorized"
  | enclosedParallel => "an enclosed loop is parallel"
  | notInnermost => "loop is not innermost"
  | notNested => "loops are not nested"
  | notPerfectlyNested => "loops are not perfectly nested"
  | tagged => "loop is tagged"
  | boundsDepend inner outer => "bounds of `" ++ inner ++ "` depend on `" ++ outer ++ "`"
  | selfFusion => "a computation cannot be fused with itself"
  | notEnclosing dim computation => "`" ++ dim ++ "` does not enclose `" ++ computation ++ "`"
  | tooShallow computation levels =>
    "`" ++ computation ++ "` has fewer than " ++ toString levels ++ " enclosing loops"
  | alreadyShared => "computations already share these loops"
  | boundsDiffer first second => "bounds of `" ++ first ++ "` and `" ++ second ++ "` differ"

def TransformError.message : TransformError → String
  | unknownLoop dim => "no loop named `" ++ dim ++ "`"
  | unknownComputation name => "no computation named `" ++ name ++ "`"
  | notApplicable t o => "`" ++ t.text ++ "` does not apply: " ++ o.message

abbrev Transformed (α : Type) : Type := Outcome TransformError α

def namedLoop (roots : List Node) (dim : String) : Transformed (Path × Header × List Node) :=
  match Node.loopPath? roots dim with
  | none => Outcome.refuse (.unknownLoop dim)
  | some path =>
    match Node.loopAt? roots path with
    | none => Outcome.refuse (.unknownLoop dim)
    | some (h, body) => .ok (path, h, body)

end LoopNest

namespace LoopNest

inductive Transformation where
  | tile (dim : String) (factor : Nat)
  | interchange (first second : String)
  | fuse (first second dim : String)
  | unroll (dim : String) (factor : Nat)
  | parallelize (dim : String)
  | vectorize (dim : String) (factor : Nat)
  deriving DecidableEq

abbrev Schedule : Type := List Transformation

namespace Transformation

def keyword : Transformation → String
  | tile _ _ => "tile"
  | interchange _ _ => "interchange"
  | fuse _ _ _ => "fuse"
  | unroll _ _ => "unroll"
  | parallelize _ => "parallelize"
  | vectorize _ _ => "vectorize"

def operands : Transformation → List String
  | tile d n => [d, toString n]
  | interchange a b => [a, b]
  | fuse a b d => [a, b, d]
  | unroll d n => [d, toString n]
  | parallelize d => [d]
  | vectorize d n => [d, toString n]

def names : Transformation → List String
  | tile d _ => [d]
  | interchange a b => [a, b]
  | fuse a b d => [a, b, d]
  | unroll d _ => [d]
  | parallelize d => [d]
  | vectorize d _ => [d]

def text (t : Transformation) : String := " ".intercalate (t.keyword :: t.operands)

end Transformation

namespace Schedule

def text (s : Schedule) : String := String.join (s.map fun t => t.text ++ "\n")

end Schedule

end LoopNest

import LoopNest.Nest.Basic

namespace LoopNest

namespace Candidates

def tileGrid : List Nat := [2, 4, 8, 16, 32, 64]

def unrollGrid : List Nat := [2, 4, 8, 16]

def widthGrid : List Nat := [4, 8, 16]

mutual

def soleLoops : Node → List Header
  | .leaf _ => []
  | .loop h body => h :: soleLoopsIn body

def soleLoopsIn : List Node → List Header
  | [n] => soleLoops n
  | _ => []

end

def tiles (h : Header) (extent : Option Int) : List Transformation :=
  match extent with
  | some n =>
    if h.lower.constant?.isSome then
      (tileGrid.filter fun (f : Nat) => (f : Int) < n).map (.tile h.dim)
    else []
  | none => []

def interchanges (h : Header) (body : List Node) : List Transformation :=
  ((soleLoopsIn body).filter fun g => !g.hasTags).map fun g => .interchange h.dim g.dim

def innermost (h : Header) (extent : Option Int) : List Transformation :=
  match extent with
  | some n =>
    (unrollGrid.filter fun (f : Nat) => (f : Int) ≤ n).map (.unroll h.dim) ++
      (widthGrid.filter fun (f : Nat) => (f : Int) ≤ n).map (.vectorize h.dim)
  | none => []

def parallelizations (parallelAbove : Bool) (h : Header) (body : List Node) : List Transformation :=
  if !parallelAbove && !h.tags.parallel && h.tags.vectorize.isNone && !Node.containsParallel body then
    [.parallelize h.dim]
  else []

def forLoop (parallelAbove : Bool) (h : Header) (body : List Node) : Checked (List Transformation) := do
  let extent ← h.fixedExtent?
  let whenUntagged :=
    if h.hasTags then []
    else tiles h extent ++ interchanges h body ++
      (if Node.onlyLeaves body then innermost h extent else [])
  return whenUntagged ++ parallelizations parallelAbove h body

mutual

def forNode (parallelAbove : Bool) : Node → Checked (List Transformation)
  | .leaf _ => .ok []
  | .loop h body => do
    let own ← forLoop parallelAbove h body
    let rest ← forNodes (parallelAbove || h.tags.parallel) body
    return own ++ rest

def forNodes (parallelAbove : Bool) : List Node → Checked (List Transformation)
  | [] => .ok []
  | n :: ns => do
    let own ← forNode parallelAbove n
    let rest ← forNodes parallelAbove ns
    return own ++ rest

end

def fusionsOfPair (p : Program) (roots : List Node) (depth : Nat) (left right : Node) :
    List Transformation :=
  if left.isLeaf || right.isLeaf then []
  else match left.leaves.getLast?, right.leaves.head? with
    | some a, some b =>
      match Node.leafPath? roots a.computation, Node.leafPath? roots b.computation with
      | some aPath, some bPath =>
        -- the last entry of a path is the leaf itself
        let shared := min (aPath.length - 1) (bPath.length - 1)
        let dims := (Node.above roots aPath).map fun l => l.1.dim
        ((dims.take shared).drop depth).map
          (.fuse (p.computationName a.computation) (p.computationName b.computation))
      | _, _ => []
    | _, _ => []

def fusionsOfPairs (p : Program) (roots : List Node) (depth : Nat) : List Node → List Transformation
  | l :: r :: rest => fusionsOfPair p roots depth l r ++ fusionsOfPairs p roots depth (r :: rest)
  | _ => []

mutual

def fusionsBelow (p : Program) (roots : List Node) (depth : Nat) : Node → List Transformation
  | .leaf _ => []
  | .loop _ body => fusionsOfPairs p roots (depth + 1) body ++ fusionsBelowAll p roots (depth + 1) body

def fusionsBelowAll (p : Program) (roots : List Node) (depth : Nat) : List Node → List Transformation
  | [] => []
  | n :: ns => fusionsBelow p roots depth n ++ fusionsBelowAll p roots depth ns

end

end Candidates

namespace Nest

def candidates (c : Context) (n : Nest) : Checked (List Transformation) := do
  let loops ← Candidates.forNodes false n.roots
  return loops ++ Candidates.fusionsOfPairs c.program n.roots 0 n.roots ++
    Candidates.fusionsBelowAll c.program n.roots 0 n.roots

def derive? (c : Context) (n : Nest) (t : Transformation) : Checked (Option Nest) :=
  match n.derive c t with
  | .ok m => .ok (some m)
  | .error (.refused _) => .ok none
  | .error (.fault f) => .error f

def deriveEach (c : Context) (n : Nest) : List Transformation → Checked (List Nest)
  | [] => .ok []
  | t :: ts => do
    let m ← n.derive? c t
    let ms ← deriveEach c n ts
    return m.toList ++ ms

def neighbors (c : Context) (n : Nest) : Checked (List Nest) := do
  let ts ← n.candidates c
  deriveEach c n ts

end Nest

end LoopNest

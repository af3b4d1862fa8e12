import LoopNest.Evaluation.Basic

namespace LoopNest

structure Machine where
  processors : Nat := 8
  vectorBytes : Nat := 32
  cacheBytes : Nat := 32768
  lineBytes : Nat := 64
  opCost : Float := 1.0
  missCost : Float := 20.0
  loopOverhead : Float := 1.0
  parallelOverhead : Float := 1000.0

namespace Cost

/-- A loop on the way to a node: the inclusive range of its variable and twice its mean trip count. -/
structure Layer where
  dim : String
  low : Int
  high : Int
  doubled : Int
  tags : Tags

def Layer.trips (f : Layer) : Float := Arithmetic.greatest ((Int64.ofInt f.doubled).toFloat / 2.0) 0.0

-- innermost first
abbrev Layers : Type := List Layer

def rangeOf (fs : Layers) (v : String) : Option (Int × Int) :=
  (fs.find? fun f => f.dim == v).map fun f => (f.low, f.high)

def boundsOf (fs : Layers) (dim : String) (f : Affine) : Evaluated (Int × Int) := do
  match ← f.bounds (rangeOf fs) with
  | some b => return b
  | none =>
    Outcome.refuse (.model ("bounds of `" ++ dim ++ "` are not affine in enclosing loops"))

def upperBounds (fs : Layers) (h : Header) : Evaluated (Int × Int) := do
  let (lo, hi) ← boundsOf fs h.dim h.upper
  match h.clamp with
  | none => return (lo, hi)
  | some c => do
    let (clampLo, clampHi) ← boundsOf fs h.dim c
    return (min lo clampLo, min hi clampHi)

def layer (fs : Layers) (h : Header) : Evaluated Layer := do
  let (lowerLo, lowerHi) ← boundsOf fs h.dim h.lower
  let (upperLo, upperHi) ← upperBounds fs h
  let most ← Word.sub upperHi lowerLo
  let least ← Word.sub upperLo lowerHi
  let doubled ← Word.add most least
  let last ← Word.sub upperHi 1
  -- a loop that may be empty still has its first value
  return { dim := h.dim, low := lowerLo, high := max last lowerLo, doubled, tags := h.tags }

def tripProduct (fs : Layers) : Float := (fs.reverse.map Layer.trips).foldl (· * ·) 1.0

/-- An access over loop variables, with the extents of its buffer and the size of an element. -/
structure Footprint where
  indices : List Affine
  shape : List Nat
  elementBytes : Nat

def span (inner : Layers) (f : Affine) (extent : Nat) : Float :=
  -- outermost first, as everywhere: the order decides how sums of floats are rounded
  let moved := inner.reverse.foldl (fun acc fr =>
    acc + Float.ofNat (f.coefficient fr.dim).natAbs * Arithmetic.greatest (fr.trips - 1.0) 0.0) 0.0
  Arithmetic.least (1.0 + moved) (Float.ofNat extent)

def Footprint.lines (fp : Footprint) (inner : Layers) (lineBytes : Nat) : Float :=
  let spans := (fp.indices.zip fp.shape).map fun (f, extent) => span inner f extent
  match spans.getLast? with
  | none => 1.0
  | some last =>
    let contiguous := Arithmetic.greatest
      ((last * Float.ofNat fp.elementBytes / Float.ofNat lineBytes).ceil) 1.0
    contiguous * spans.dropLast.foldl (· * ·) 1.0

def footprintIndices (p : Program) (l : Leaf) : List Affine → Checked (List Affine)
  | [] => .ok []
  | f :: fs => do
    let g ← l.inLoops p f
    let gs ← footprintIndices p l fs
    return g :: gs

def footprint (p : Program) (l : Leaf) (a : Access) : Checked Footprint := do
  let indices ← footprintIndices p l a.indices
  match p.buffers[a.buffer]? with
  | some b => return { indices, shape := b.shape, elementBytes := b.dtype.size }
  | none => return { indices, shape := [], elementBytes := 1 }

def footprints (p : Program) (l : Leaf) : List Access → Checked (List Footprint)
  | [] => .ok []
  | a :: as => do
    let f ← footprint p l a
    let fs ← footprints p l as
    return f :: fs

def dropRepeated (done : List Access) : List Access → List Access
  | [] => done
  | a :: as => dropRepeated (if done.contains a then done else done ++ [a]) as

/-- The outermost level from which on everything touched fits into the cache decides; `outer` is what has
been left outside so far, innermost first. -/
def misses (m : Machine) (fps : List Footprint) (otherwise : Float) :
    Layers → List Layer → Float
  | outer, inner =>
    -- `outer` is what has been left outside so far; once the rest fits, it is read again for each iteration of `outer`
    let lines := (fps.map fun fp => fp.lines inner.reverse m.lineBytes).foldl (· + ·) 0.0
    if lines * Float.ofNat m.lineBytes ≤ Float.ofNat m.cacheBytes then lines * tripProduct outer
    else match inner with
      | [] => otherwise
      | f :: rest => misses m fps otherwise (f :: outer) rest

def lanes (m : Machine) (elementBytes : Nat) (fs : Layers) : Float :=
  match fs.head?.bind fun f => f.tags.vectorize with
  | some width => Float.ofNat (min width (max (m.vectorBytes / elementBytes) 1))
  | none => 1.0

def costOfLeaf (m : Machine) (p : Program) (fs : Layers) (l : Leaf) : Checked Float := do
  match p.computations[l.computation]? with
  | none => Except.error .indexOutOfRange
  | some c =>
    let instances := tripProduct fs
    let elementBytes := match p.buffers[c.store.buffer]? with
      | some b => b.dtype.size
      | none => 1
    let compute :=
      instances * Float.ofNat (c.expr.operationCount + 1) * m.opCost / lanes m elementBytes fs
    let fps ← footprints p l (dropRepeated [] (c.reads ++ [c.store]))
    let missed := misses m fps (instances * Float.ofNat fps.length) [] fs.reverse
    return compute + missed * m.missCost

def costOfLoop (m : Machine) (h : Header) (activations trips body : Float) : Float :=
  let unrolled := Float.ofNat (h.tags.unroll.getD 1)
  let cost := body + activations * trips * m.loopOverhead / unrolled
  if h.tags.parallel && trips > 0.0 then
    -- in the last round of iterations some processors may be idle
    let workers := Arithmetic.least (Float.ofNat (max m.processors 1)) trips
    cost * (trips / workers).ceil / trips + activations * m.parallelOverhead
  else cost

mutual

def node (m : Machine) (p : Program) (fs : Layers) : Node → Evaluated (Float × List Float)
  | .leaf l => do
    let c ← costOfLeaf m p fs l
    return (c, [c])
  | .loop h body => do
    let f ← layer fs h
    let (total, costs) ← nodes m p (f :: fs) 0.0 body
    let c := costOfLoop m h (tripProduct fs) f.trips total
    return (c, c :: costs)

def nodes (m : Machine) (p : Program) (fs : Layers) (total : Float) :
    List Node → Evaluated (Float × List Float)
  | [] => .ok (total, [])
  | n :: ns => do
    let (c, costs) ← node m p fs n
    let (total, more) ← nodes m p fs (total + c) ns
    return (total, costs ++ more)

end

end Cost

namespace Machine

def cost (m : Machine) (p : Program) (roots : List Node) : Evaluated Float := do
  let (total, _) ← Cost.nodes m p [] 0.0 roots
  return total

def costPerNode (m : Machine) (p : Program) (roots : List Node) : Evaluated (List Float) := do
  let (_, costs) ← Cost.nodes m p [] 0.0 roots
  return costs

def evaluator (m : Machine) (p : Program) : Evaluator where
  name := "model"
  evaluate n := m.cost p n.roots

end Machine

end LoopNest

import LoopNest.Evaluation.Basic

/-!
Programs of the catalogue computed directly on matrices, and the test whether a nest computes the same.
-/

namespace LoopNest

structure Matrix (V : Type) where
  rows : Nat
  cols : Nat
  entries : Array V

inductive ReferenceError where
  | noReference (program : String)
  | badInput (buffer : String)
  | backend (e : BackendError)
  deriving DecidableEq

def ReferenceError.message : ReferenceError → String
  | noReference p => "no reference implementation for program `" ++ p ++ "`"
  | badInput b => "input buffer `" ++ b ++ "` is missing or misshapen"
  | backend e => e.message

abbrev Referenced (α : Type) : Type := Outcome ReferenceError α

namespace Matrix

variable {V : Type}

def get (A : Arithmetic V) (m : Matrix V) (i j : Nat) : V := m.entries.getD (i * m.cols + j) A.zero

def ofFn (rows cols : Nat) (f : Nat → Nat → V) : Matrix V :=
  { rows, cols, entries := Array.ofFn fun (n : Fin (rows * cols)) => f (n.val / cols) (n.val % cols) }

def zeros (A : Arithmetic V) (rows cols : Nat) : Matrix V := ofFn rows cols fun _ _ => A.zero

end Matrix

/-- What the reference takes from a library for matrices: products, products with factors that are added to a multiple
of another matrix, and sums. -/
structure MatrixOperations (V : Type) where
  dot (a b : Matrix V) : Checked (Matrix V)
  generalProduct (alpha : V) (a b : Matrix V) (beta : V) (c : Matrix V) : Checked (Matrix V)
  sum (xs : List V) : V

namespace MatrixOperations

variable {V : Type} (A : Arithmetic V)

def total (xs : List V) : V := xs.foldl (A.binary .add) A.zero

def rowTimesColumn (a b : Matrix V) (i j : Nat) : V :=
  total A ((List.range a.cols).map fun k => A.binary .mul (a.get A i k) (b.get A k j))

def folds : MatrixOperations V where
  dot a b := if a.cols ≠ b.rows then .error .shapeMismatch
    else .ok (.ofFn a.rows b.cols (rowTimesColumn A a b))
  generalProduct alpha a b beta c :=
    if a.cols ≠ b.rows ∨ c.rows ≠ a.rows ∨ c.cols ≠ b.cols then .error .shapeMismatch
    else .ok (.ofFn a.rows b.cols fun i j =>
      A.binary .add (A.binary .mul alpha (rowTimesColumn A a b i j)) (A.binary .mul beta (c.get A i j)))
  sum := total A

end MatrixOperations

namespace Reference

variable {V : Type}

def mean (A : Arithmetic V) (ops : MatrixOperations V) (round : V → V) (f : Nat → V) : V :=
  round (A.binary .div (ops.sum ((List.range 3).map f)) (A.ofConst 3.0))

def blurRows (A : Arithmetic V) (ops : MatrixOperations V) (round : V → V) (m : Matrix V) : Matrix V :=
  .ofFn m.rows (m.cols - 2) fun i j => mean A ops round fun k => m.get A i (j + k)

def blurCols (A : Arithmetic V) (ops : MatrixOperations V) (round : V → V) (m : Matrix V) : Matrix V :=
  .ofFn (m.rows - 2) m.cols fun i j => mean A ops round fun k => m.get A (i + k) j

def matrix (p : Program) (i : Inputs V) (name : String) : Referenced (Matrix V) := do
  let b ← Outcome.require (p.buffers.find? fun b => b.name == name) (.badInput name)
  let values ← Outcome.require (i.get? name) (.badInput name)
  match b.shape with
  | [rows, cols] =>
    if rows * cols = values.size then return { rows, cols, entries := values }
    else Outcome.refuse (.badInput name)
  | _ => Outcome.refuse (.badInput name)

def blurred (A : Arithmetic V) (ops : MatrixOperations V) (p : Program) (m : Matrix V) : Checked (Matrix V) :=
  if m.rows < 2 || m.cols < 2 then .error .overflow
  else
    let round := match p.buffers.find? fun b => b.name == "by" with
      | some b => A.round b.dtype
      | none => id
    .ok (blurCols A ops round (blurRows A ops round m))

def asOutput (p : Program) (name : String) (m : Matrix V) : Checked (List (String × Matrix V)) :=
  if p.buffers.any fun b => b.name == name && b.kind == .output then .ok [(name, m)]
  else .error .notAnOutput

def outputs (A : Arithmetic V) (p : Program) (i : Inputs V) (ops : MatrixOperations V := .folds A) :
    Referenced (List (String × Matrix V)) := do
  match p.name with
  | "matmul" =>
    let a ← matrix p i "A"
    let b ← matrix p i "B"
    let c ← ops.dot a b
    asOutput p "C" c
  | "2mm" =>
    let a ← matrix p i "A"
    let b ← matrix p i "B"
    let c ← matrix p i "C"
    let tmp ← ops.dot a b
    let d ← ops.generalProduct (A.ofConst 1.0) tmp c (A.ofConst 0.0) (.zeros A tmp.rows c.cols)
    asOutput p "D" d
  | "blur" =>
    let m ← matrix p i "input"
    let blurred ← blurred A ops p m
    asOutput p "by" blurred
  | other => Outcome.refuse (.noReference other)

def tolerance : Float := 1e-6

def close (expected actual : Float) : Bool :=
  (expected - actual).abs ≤ tolerance * Arithmetic.greatest expected.abs 1.0

def allClose : List Float → List Float → Bool
  | [], [] => true
  | e :: es, a :: as => close e a && allClose es as
  | _, _ => false

def agrees (expected : List (String × Matrix Float)) (actual : List (String × Array Float)) : Bool :=
  expected.all fun (name, m) =>
    match actual.find? fun r => r.1 == name with
    | some (_, values) => allClose m.entries.toList values.toList
    | none => false

def check (p : Program) (roots : List Node) (i : Inputs Float)
    (ops : MatrixOperations Float := .folds Arithmetic.binary64) : Referenced Bool := do
  let expected ← outputs Arithmetic.binary64 p i ops
  let actual ← (Interpreter.execute Arithmetic.binary64 p roots i).mapRefusal
    fun e => .backend e.toBackend
  return agrees expected actual

end Reference

end LoopNest

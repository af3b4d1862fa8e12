import LoopNest.Affine.Basic
import LoopNest.Arithmetic

namespace LoopNest

structure Buffer where
  name : String
  shape : List Nat
  dtype : ElementType
  kind : BufferRole

/-- `lower ≤ name < upper`. -/
structure Dimension where
  name : String
  lower : Affine
  upper : Affine
  deriving DecidableEq

structure Access where
  buffer : Nat
  indices : List Affine
  deriving DecidableEq

inductive Expr where
  | const (v : Float)
  | iter (name : String)
  | load (a : Access)
  | binary (op : Operator) (lhs rhs : Expr)
  | neg (arg : Expr)
  | call (f : Intrinsic) (arg : Expr)

/-- `after = some (other, level)` asks that the loops at depths `0 … level` be shared with the earlier
computation `other`. -/
structure Computation where
  name : String
  domain : List Dimension
  expr : Expr
  store : Access
  after : Option (Nat × Nat)

structure Program where
  name : String
  params : List (String × Int)
  buffers : List Buffer
  computations : List Computation

def product (ns : List Nat) : Nat := ns.foldr (· * ·) 1

def rowMajorStrides : List Nat → List Nat
  | [] => []
  | _ :: rest => product rest :: rowMajorStrides rest

namespace Buffer

def volume (b : Buffer) : Nat := product b.shape

def strides (b : Buffer) : List Nat := rowMajorStrides b.shape

end Buffer

namespace Expr

def loads : Expr → List Access
  | const _ => []
  | iter _ => []
  | load a => [a]
  | binary _ l r => l.loads ++ r.loads
  | neg e => e.loads
  | call _ e => e.loads

def operationCount : Expr → Nat
  | const _ => 0
  | iter _ => 0
  | load _ => 0
  | binary _ l r => 1 + l.operationCount + r.operationCount
  | neg e => 1 + e.operationCount
  | call _ e => 1 + e.operationCount

def eval {V : Type} (A : Arithmetic V) (iterValue : String → Int) (read : Access → V) : Expr → V
  | const v => A.ofConst v
  | iter name => A.ofInt (iterValue name)
  | load a => read a
  | binary op l r => A.binary op (l.eval A iterValue read) (r.eval A iterValue read)
  | neg e => A.neg (e.eval A iterValue read)
  | call f e => A.call f (e.eval A iterValue read)

end Expr

namespace Computation

def depth (c : Computation) : Nat := c.domain.length

def reads (c : Computation) : List Access := c.expr.loads

def iterators (c : Computation) : List String := c.domain.map Dimension.name

end Computation

def position? {α : Type} (p : α → Bool) : List α → Option Nat
  | [] => none
  | a :: as => if p a then some 0 else (position? p as).map (· + 1)

theorem position?_eq_findIdx? {α : Type} (p : α → Bool) (as : List α) :
    position? p as = as.findIdx? p := by
  induction as with
  | nil => rfl
  | cons a as ih => rw [position?, ih, List.findIdx?_cons]

theorem exists_of_position? {α : Type} {p : α → Bool} {as : List α} {i : Nat}
    (h : position? p as = some i) : ∃ a, as[i]? = some a ∧ p a = true := by
  rw [position?_eq_findIdx?] at h
  obtain ⟨hi, hp, -⟩ := List.findIdx?_eq_some_iff_getElem.1 h
  exact ⟨as[i], List.getElem?_eq_getElem hi, hp⟩

namespace Program

def bufferPosition? (p : Program) (name : String) : Option Nat :=
  position? (fun b => b.name == name) p.buffers

def computationPosition? (p : Program) (name : String) : Option Nat :=
  position? (fun c => c.name == name) p.computations

def bufferName (p : Program) (b : Nat) : String :=
  match p.buffers[b]? with
  | some b => b.name
  | none => ""

def computationName (p : Program) (c : Nat) : String :=
  match p.computations[c]? with
  | some c => c.name
  | none => ""

end Program

theorem rowMajorStrides_length (ns : List Nat) : (rowMajorStrides ns).length = ns.length := by
  induction ns with
  | nil => rfl
  | cons n ns ih => simp [rowMajorStrides, ih]

end LoopNest

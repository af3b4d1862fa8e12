import LoopNest.ElementType

namespace LoopNest

namespace Description

structure Buffer where
  name : String
  shape : List String
  dtype : ElementType
  kind : BufferRole

structure Iterator where
  name : String
  lower : String
  upper : String

structure Access where
  buffer : String
  indices : List String

structure After where
  computation : String
  level : Nat

inductive Expr where
  | const (value : Float)
  | iter (name : String)
  | load (a : Access)
  | binary (op : String) (lhs rhs : Expr)
  | neg (arg : Expr)
  | call (name : String) (args : List Expr)

structure Computation where
  name : String
  iterators : List Iterator
  store : Access
  expr : Expr
  after : Option After := none

end Description

/-- Parameters are sorted by name and named once. -/
structure Description where
  name : String
  params : List (String × Int)
  buffers : List Description.Buffer
  computations : List Description.Computation

namespace Description

def insertParam (name : String) (v : Int) : List (String × Int) → List (String × Int)
  | [] => [(name, v)]
  | (k, w) :: rest =>
    if name < k then (name, v) :: (k, w) :: rest
    else if name = k then (name, v) :: rest
    else (k, w) :: insertParam name v rest

def param? (params : List (String × Int)) (name : String) : Option Int :=
  (params.find? fun p => p.1 == name).map Prod.snd

end Description

end LoopNest

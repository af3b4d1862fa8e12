import LoopNest.Decimal.Layout

namespace LoopNest.C

inductive Expr where
  | int (n : Int)
  | double (x : Float)
  | var (name : String)
  | neg (e : Expr)
  | binary (op : String) (lhs rhs : Expr)
  | paren (e : Expr)
  | call (name : String) (args : List Expr)
  | subscript (array : String) (index : Expr)
  | cast (type : String) (e : Expr)

namespace Expr

mutual

def text : Expr → String
  | int n => toString n
  | double x => Decimal.literal x
  | var name => name
  | neg e => "-" ++ e.text
  | binary op l r => l.text ++ " " ++ op ++ " " ++ r.text
  | paren e => "(" ++ e.text ++ ")"
  | call name args => name ++ "(" ++ ", ".intercalate (textAll args) ++ ")"
  | subscript array index => array ++ "[" ++ index.text ++ "]"
  | cast type e => "(" ++ type ++ ")" ++ e.text

def textAll : List Expr → List String
  | [] => []
  | e :: es => e.text :: textAll es

end

def sum : List Expr → Expr
  | [] => int 0
  | e :: es => es.foldl (binary "+") e

end Expr

end LoopNest.C

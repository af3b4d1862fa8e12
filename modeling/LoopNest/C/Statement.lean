import LoopNest.C.Basic
import LoopNest.Text.LineMark
import LoopNest.Tree.Basic

namespace LoopNest.C

/-- `loop` starts its counter at `lower` and goes on while it is below `limit`, which is evaluated anew
before every iteration. -/
inductive Statement where
  | assign (target value : Expr)
  | loop (tags : Tags) (counter : String) (lower limit : Expr) (body : List Statement)

def line (depth : Nat) (s : String) : String := Text.indentation depth ++ s ++ "\n"

def directives (t : Tags) : String :=
  (if t.parallel then "#pragma omp parallel for\n" else "") ++
  (match t.vectorize with
    | some n =>
      "#pragma clang loop vectorize(enable) vectorize_width(" ++ toString n ++ ")\n"
    | none => "") ++
  (match t.unroll with
    | some n => "#pragma unroll " ++ toString n ++ "\n"
    | none => "")

def loopHead (v : String) (lower limit : Expr) : String :=
  "for (int64_t " ++ v ++ " = " ++ lower.text ++ "; " ++ v ++ " < " ++ limit.text ++ "; " ++ v ++ "++) \x7b"

namespace Statement

mutual

def text (depth : Nat) : Statement → String
  | assign target value => line depth (target.text ++ " = " ++ value.text ++ ";")
  | loop tags v lower limit body =>
    directives tags ++ line depth (loopHead v lower limit) ++ textAll (depth + 1) body ++ line depth "\x7d"

def textAll (depth : Nat) : List Statement → String
  | [] => ""
  | s :: ss => s.text depth ++ textAll depth ss

end

end Statement

end LoopNest.C

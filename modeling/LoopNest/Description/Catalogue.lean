import LoopNest.Description.Basic

namespace LoopNest.Description

namespace Catalogue

def load (buffer : String) (indices : List String) : Expr := .load ⟨buffer, indices⟩

def plus (l r : Expr) : Expr := .binary "+" l r

def minus (l r : Expr) : Expr := .binary "-" l r

def times (l r : Expr) : Expr := .binary "*" l r

def dividedBy (l r : Expr) : Expr := .binary "/" l r

def upTo (name upper : String) : Iterator := ⟨name, "0", upper⟩

def square (name : String) (kind : BufferRole) : Buffer := ⟨name, ["N", "N"], .float64, kind⟩

def clear (name c : String) : Computation :=
  { name, iterators := [upTo "i" "N", upTo "j" "N"], store := ⟨c, ["i", "j"]⟩, expr := .const 0.0 }

def accumulate (name c a b : String) : Computation :=
  { name
    iterators := [upTo "i" "N", upTo "j" "N", upTo "k" "N"]
    store := ⟨c, ["i", "j"]⟩
    expr := plus (load c ["i", "j"]) (times (load a ["i", "k"]) (load b ["k", "j"])) }

end Catalogue

open Catalogue

def matmul (n : Int) : Description where
  name := "matmul"
  params := [("N", n)]
  buffers := [square "A" .input, square "B" .input, square "C" .output]
  computations := [clear "init" "C", accumulate "acc" "C" "A" "B"]

def twoMatmul (n : Int) : Description where
  name := "2mm"
  params := [("N", n)]
  buffers :=
    [square "A" .input, square "B" .input, square "C" .input, square "tmp" .temporary,
      square "D" .output]
  computations :=
    [clear "tmp_init" "tmp", accumulate "tmp_acc" "tmp" "A" "B", clear "d_init" "D",
      accumulate "d_acc" "D" "tmp" "C"]

def blur (n : Int) : Description where
  name := "blur"
  params := [("N", n)]
  buffers :=
    [⟨"input", ["N", "N"], .float32, .input⟩, ⟨"bx", ["N", "N - 2"], .float32, .temporary⟩,
      ⟨"by", ["N - 2", "N - 2"], .float32, .output⟩]
  computations :=
    [{ name := "blur_x"
       iterators := [upTo "i" "N", upTo "j" "N - 2"]
       store := ⟨"bx", ["i", "j"]⟩
       expr := dividedBy (plus (plus (load "input" ["i", "j"]) (load "input" ["i", "j + 1"]))
        (load "input" ["i", "j + 2"])) (.const 3.0) },
     { name := "blur_y"
       iterators := [upTo "i" "N - 2", upTo "j" "N - 2"]
       store := ⟨"by", ["i", "j"]⟩
       expr := dividedBy (plus (plus (load "bx" ["i", "j"]) (load "bx" ["i + 1", "j"]))
        (load "bx" ["i + 2", "j"])) (.const 3.0) }]

def cholesky (n : Int) : Description where
  name := "cholesky"
  params := [("N", n)]
  buffers := [square "A" .input, square "L" .output]
  computations :=
    [{ name := "copy"
       iterators := [upTo "i" "N", upTo "j" "N"]
       store := ⟨"L", ["i", "j"]⟩
       expr := load "A" ["i", "j"] },
     { name := "S1"
       iterators := [upTo "i" "N", upTo "j" "i", upTo "k" "j"]
       store := ⟨"L", ["i", "j"]⟩
       expr := minus (load "L" ["i", "j"]) (times (load "L" ["i", "k"]) (load "L" ["j", "k"])) },
     { name := "S2"
       iterators := [upTo "i" "N", upTo "j" "i"]
       store := ⟨"L", ["i", "j"]⟩
       expr := dividedBy (load "L" ["i", "j"]) (load "L" ["j", "j"])
       after := some ⟨"S1", 1⟩ },
     { name := "S3"
       iterators := [upTo "i" "N", upTo "k" "i"]
       store := ⟨"L", ["i", "i"]⟩
       expr := minus (load "L" ["i", "i"]) (times (load "L" ["i", "k"]) (load "L" ["i", "k"]))
       after := some ⟨"S2", 0⟩ },
     { name := "S4"
       iterators := [upTo "i" "N"]
       store := ⟨"L", ["i", "i"]⟩
       expr := .call "sqrt" [load "L" ["i", "i"]]
       after := some ⟨"S3", 0⟩ }]

def producerConsumer (n : Int) : Description where
  name := "producer_consumer"
  params := [("N", n)]
  buffers :=
    [⟨"input", ["N"], .float64, .input⟩, ⟨"buf", ["N"], .float64, .temporary⟩,
      ⟨"out", ["N"], .float64, .output⟩]
  computations :=
    [{ name := "produce"
       iterators := [upTo "i" "N"]
       store := ⟨"buf", ["i"]⟩
       expr := times (.const 2.0) (load "input" ["i"]) },
     { name := "consume"
       iterators := [upTo "i" "N"]
       store := ⟨"out", ["i"]⟩
       expr := plus (load "buf" ["i"]) (.const 1.0) }]

def named (name : String) (n : Int) : Description :=
  match name with
  | "matmul" => matmul n
  | "two_mm" => twoMatmul n
  | "blur" => blur n
  | "cholesky" => cholesky n
  | _ => producerConsumer n

end LoopNest.Description

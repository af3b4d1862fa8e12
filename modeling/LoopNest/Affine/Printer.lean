import LoopNest.Affine.Basic

namespace LoopNest.Affine

def termText (first : Bool) (t : Term) : Checked String := do
  let magnitude ← Word.abs t.coeff
  let sign :=
    if first then (if t.coeff < 0 then "-" else "") else (if t.coeff < 0 then " - " else " + ")
  let factor := if magnitude = 1 then "" else toString magnitude ++ "*"
  return sign ++ factor ++ t.atom

def termsText : Bool → List Term → Checked String
  | _, [] => .ok ""
  | first, t :: ts => do
    let head ← termText first t
    let rest ← termsText false ts
    return head ++ rest

def constantText (c : Int) : Checked String :=
  if c = 0 then .ok ""
  else if c < 0 then do
    let magnitude ← Word.neg c
    return " - " ++ toString magnitude
  else .ok (" + " ++ toString c)

def text (f : Affine) : Checked String :=
  if f.terms.isEmpty then .ok (toString f.constant)
  else do
    let ts ← termsText true f.terms
    let c ← constantText f.constant
    return ts ++ c

end LoopNest.Affine

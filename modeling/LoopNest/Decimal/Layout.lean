import LoopNest.Decimal.Shortest

namespace LoopNest.Decimal

def digits (n : Nat) : List Char := Nat.toDigits 10 n

def zeros (n : Nat) : List Char := List.replicate n '0'

def positional (s : Scaled) : List Char :=
  let ds := digits s.significand
  let point := (ds.length : Int) + s.exponent
  if 0 ≤ s.exponent then ds ++ zeros s.exponent.toNat
  else if 0 < point then ds.take point.toNat ++ '.' :: ds.drop point.toNat
  else '0' :: '.' :: (zeros (-point).toNat ++ ds)

def exponential (s : Scaled) : List Char :=
  let ds := digits s.significand
  let lead := ds.take 1
  let rest := ds.drop 1
  let e : Int := s.exponent + (rest.length : Int)
  lead ++ (if rest.isEmpty then [] else '.' :: rest) ++ 'e' :: (toString e).toList

def isNegative (bits : Nat) : Bool := (bits >>> 63) % 2 == 1

def signed (x : Float) (magnitude : Binary → List Char) : String :=
  let bits := x.toBits.toNat
  if x.isNaN then "NaN"
  else
    let body := if x.isInf then ['i', 'n', 'f'] else magnitude (Binary.ofBits bits)
    String.ofList (if isNegative bits then '-' :: body else body)

def plain (x : Float) : String := signed x fun b => positional (shortest b)

def literal (x : Float) : String :=
  signed x fun b =>
    let s := shortest b
    let m := x.abs
    if m != 0 && (m < 1e-4 || m ≥ 1e16) then exponential s
    else if 0 ≤ s.exponent then positional s ++ ['.', '0']
    else positional s

/-- The quotient rounded to the nearest integer, a half to the even one. -/
def roundDiv (num den : Nat) : Nat :=
  let q := num / den
  let twice := 2 * (num % den)
  if twice < den then q
  else if den < twice then q + 1
  else if q % 2 = 0 then q else q + 1

def fixedDigits (places : Nat) (b : Binary) : List Char :=
  let num := (b.mantissa <<< b.exponent.toNat) * Nat.pow 10 places
  let n := roundDiv num (1 <<< (-b.exponent).toNat)
  let ds := digits n
  let ds := zeros (places + 1 - ds.length) ++ ds
  if places = 0 then ds
  else ds.take (ds.length - places) ++ '.' :: ds.drop (ds.length - places)

def fixed (places : Nat) (x : Float) : String := signed x (fixedDigits places)

def padLeft (width : Nat) (s : String) : String :=
  String.ofList (List.replicate (width - s.length) ' ') ++ s

def padRight (width : Nat) (s : String) : String :=
  s ++ String.ofList (List.replicate (width - s.length) ' ')

def hexWord (n : Nat) (width : Nat) : String :=
  let ds := Nat.toDigits 16 n
  String.ofList (zeros (width - ds.length) ++ ds)

end LoopNest.Decimal

import LoopNest.Affine.Basic
import LoopNest.Decimal.Integer
import LoopNest.Text.Blank
import LoopNest.Text.Name

namespace LoopNest.Affine

structure ParseError where
  text : String
  deriving DecidableEq

def isSign (c : Char) : Bool := c == '+' || c == '-'

def cutTerms : List Char → List (List Char)
  | [] => []
  | c :: r =>
    match r, cutTerms r with
    | d :: _, w :: ws => if isSign d then [c] :: w :: ws else (c :: w) :: ws
    | _, _ => [[c]]

def splitSign : List Char → Int × List Char
  | '+' :: body => (1, body)
  | '-' :: body => (-1, body)
  | body => (1, body)

def literal? (factor : List Char) : Option Int :=
  (Decimal.unsigned? factor).bind fun n => if Word.fits n then some (n : Int) else none

def parseFactors (e : ParseError) :
    Int → Option String → List (List Char) → Outcome ParseError (Int × Option String)
  | c, a, [] => .ok (c, a)
  | c, a, w :: ws =>
    match literal? w with
    | some k => do
      let c ← Word.mul c k
      parseFactors e c a ws
    | none =>
      if Name.isIdentifierChars w && a.isNone then parseFactors e c (some (String.ofList w)) ws
      else Outcome.refuse e

def readTerm (e : ParseError) (term : List Char) : Outcome ParseError Affine := do
  let (sign, body) := splitSign term
  let (c, a) ← parseFactors e sign none (Text.splitWhere (· == '*') body)
  match a with
  | some a => (var a).scale c
  | none => return ofInt c

def sumTerms (e : ParseError) : Affine → List (List Char) → Outcome ParseError Affine
  | acc, [] => .ok acc
  | acc, w :: ws => do
    let t ← readTerm e w
    let acc ← acc.add t
    sumTerms e acc ws

def parse (s : String) : Outcome ParseError Affine :=
  match Text.blankFree s with
  | [] => Outcome.refuse ⟨s⟩
  | cs => sumTerms ⟨s⟩ zero (cutTerms cs)

end LoopNest.Affine

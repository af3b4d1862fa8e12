import LoopNest.Json.Basic
import LoopNest.Decimal.Integer

/-!
Reading JSON text, strictly: nothing but blanks after the value and no control characters in strings. A
number too large for a float, text with a lone surrogate and a container inside 127 others are read as
parts without a value; what to do with one is up to the reader of the document.
-/

namespace LoopNest.Json

def depthLimit : Nat := 127

def skipBlanks : List Char → List Char
  | [] => []
  | c :: r => if c == ' ' || c == '\n' || c == '\t' || c == '\r' then skipBlanks r else c :: r

def hexValue? (c : Char) : Option Nat :=
  if '0' ≤ c && c ≤ '9' then some (c.toNat - 48)
  else if 'a' ≤ c && c ≤ 'f' then some (c.toNat - 87)
  else if 'A' ≤ c && c ≤ 'F' then some (c.toNat - 55)
  else none

def hexFour? : List Char → Option (Nat × List Char)
  | a :: b :: c :: d :: r => do
    let a ← hexValue? a
    let b ← hexValue? b
    let c ← hexValue? c
    let d ← hexValue? d
    return (((a * 16 + b) * 16 + c) * 16 + d, r)
  | _ => none

def unicode? (cs : List Char) : Option (Option Char × List Char) := do
  let (n, r) ← hexFour? cs
  if n < 0xD800 || 0xE000 ≤ n then return (some (Char.ofNat n), r)
  -- half a pair is no character
  else if 0xDC00 ≤ n then return (none, r)
  else match lowUnit? r with
    | some (m, r) => return (some (Char.ofNat (0x10000 + (n - 0xD800) * 0x400 + (m - 0xDC00))), r)
    | none => return (none, r)
where
  lowUnit? : List Char → Option (Nat × List Char)
    | '\\' :: 'u' :: r => do
      let (m, r) ← hexFour? r
      if 0xDC00 ≤ m && m < 0xE000 then return (m, r) else none
    | _ => none

def shortEscape? (c : Char) : Option Char :=
  if c == '"' || c == '\\' || c == '/' then some c
  else if c == 'b' then some '\x08'
  else if c == 'f' then some '\x0c'
  else if c == 'n' then some '\n'
  else if c == 'r' then some '\r'
  else if c == 't' then some '\t'
  else none

def stringBody? : Nat → Option (List Char) → List Char → Option (Option String × List Char)
  | 0, _, _ => none
  | fuel + 1, acc, cs =>
    match cs with
    | [] => none
    | c :: r =>
      if c == '"' then some (acc.map fun cs => String.ofList cs.reverse, r)
      else if c.toNat < 0x20 then none
      else if c == '\\' then
        match r with
        | [] => none
        | e :: r =>
          if e == 'u' then do
            let (c, r) ← unicode? r
            stringBody? fuel (both c acc) r
          else do
            let c ← shortEscape? e
            stringBody? fuel (both (some c) acc) r
      else stringBody? fuel (both (some c) acc) r
where
  both : Option Char → Option (List Char) → Option (List Char)
    | some c, some cs => some (c :: cs)
    | _, _ => none

/-- The float nearest to `n * 10 ^ e`, if it is finite. -/
def scaled? (n : Nat) (digits : Nat) (e : Int) : Option Float :=
  if n = 0 || (digits : Int) + e < -400 then some 0.0
  else if 400 < e then none
  else
    let x := if e < 0 then Float.ofScientific n true (-e).toNat else Float.ofScientific n false e.toNat
    if x.isInf then none else some x

def takeDigits (cs : List Char) : List Char × List Char :=
  (cs.takeWhile Decimal.isDigit, cs.dropWhile Decimal.isDigit)

def exponentPart? (cs : List Char) : Option (Int × List Char) :=
  match cs with
  | [] => some (0, [])
  | c :: r =>
    if c == 'e' || c == 'E' then
      let (sign, r) : Int × List Char := match r with
        | '+' :: r => (1, r)
        | '-' :: r => (-1, r)
        | r => (1, r)
      let (ds, r) := takeDigits r
      if ds.isEmpty then none else some (sign * Decimal.valueOf ds, r)
    else some (0, cs)

def fractionPart? (cs : List Char) : Option (List Char × List Char) :=
  match cs with
  | '.' :: r =>
    let (ds, r) := takeDigits r
    if ds.isEmpty then none else some (ds, r)
  | r => some ([], r)

def startsExponent : List Char → Bool
  | c :: _ => c == 'e' || c == 'E'
  | [] => false

def number? (negative : Bool) (cs : List Char) : Option (Json × List Char) := do
  let (whole, r) := takeDigits cs
  if whole.isEmpty || (whole.length > 1 && whole.head? == some '0') then none
  else
    let (fraction, r₁) ← fractionPart? r
    let (e, r₂) ← exponentPart? r₁
    let n := Decimal.valueOf whole
    let isWhole := fraction.isEmpty && !startsExponent r
    -- whole numbers that fit stay exact; minus zero and larger ones become floats
    if isWhole && !negative && n ≤ Decimal.word64Max then return (.int n, r)
    else if isWhole && negative && n ≤ 9223372036854775808 && n ≠ 0 then return (.int (-(n : Int)), r)
    else
      let x := scaled? (Decimal.valueOf (whole ++ fraction)) (whole.length + fraction.length)
        (e - fraction.length)
      return (match x with
        | some x => .float (if negative then -x else x)
        | none => .unreadable, r₂)

def literal? (word : List Char) (j : Json) (cs : List Char) : Option (Json × List Char) :=
  if word.isPrefixOf cs then some (j, cs.drop word.length) else none

def addField (k : Option String) (v : Json) (fs : Option (List (String × Json))) :
    Option (List (String × Json)) := do
  let k ← k
  let fs ← fs
  return (k, v) :: fs

def inside (depth : Nat) (j : Json) : Json := if depth = 0 then .unreadable else j

def object : Option (List (String × Json)) → Json
  | some fields => .obj fields
  | none => .unreadable

mutual

def value? : Nat → Nat → List Char → Option (Json × List Char)
  | 0, _, _ => none
  | fuel + 1, depth, cs =>
    match skipBlanks cs with
    | [] => none
    | c :: r =>
      if c == '"' then do
        let (s, r) ← stringBody? (r.length + 1) (some []) r
        return (match s with
          | some s => .str s
          | none => .unreadable, r)
      else if c == '[' then
        match skipBlanks r with
        | ']' :: r => some (inside depth (.arr []), r)
        | r => do
          let (js, r) ← items? fuel (depth - 1) r
          return (inside depth (.arr js), r)
      else if c == '\x7b' then
        match skipBlanks r with
        | '\x7d' :: r => some (inside depth (.obj []), r)
        | r => do
          let (fs, r) ← fields? fuel (depth - 1) r
          return (inside depth (object fs), r)
      else if c == 't' then literal? "true".toList (.bool true) (c :: r)
      else if c == 'f' then literal? "false".toList (.bool false) (c :: r)
      else if c == 'n' then literal? "null".toList .null (c :: r)
      else if c == '-' then number? true r
      else number? false (c :: r)

def items? : Nat → Nat → List Char → Option (List Json × List Char)
  | 0, _, _ => none
  | fuel + 1, depth, cs => do
    let (j, r) ← value? fuel depth cs
    match skipBlanks r with
    | ',' :: r => do
      let (js, r) ← items? fuel depth r
      return (j :: js, r)
    | ']' :: r => return ([j], r)
    | _ => none

def fields? : Nat → Nat → List Char → Option (Option (List (String × Json)) × List Char)
  | 0, _, _ => none
  | fuel + 1, depth, cs =>
    match skipBlanks cs with
    | '"' :: r => do
      let (k, r) ← stringBody? (r.length + 1) (some []) r
      match skipBlanks r with
      | ':' :: r => do
        let (v, r) ← value? fuel depth r
        match skipBlanks r with
        | ',' :: r => do
          let (fs, r) ← fields? fuel depth r
          return (addField k v fs, r)
        | '\x7d' :: r => return (addField k v (some []), r)
        | _ => none
      | _ => none
    | _ => none

end

def parse? (s : String) : Option Json := do
  let cs := s.toList
  -- every step consumes a character or enters a container it has just opened
  let (j, r) ← value? (2 * cs.length + 2) depthLimit cs
  if (skipBlanks r).isEmpty then return j else none

end LoopNest.Json

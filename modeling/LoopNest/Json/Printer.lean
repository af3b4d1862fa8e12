import LoopNest.Json.Basic
import LoopNest.Decimal.Layout

namespace LoopNest.Json

def escapeChar (c : Char) : List Char :=
  if c == '"' then ['\\', '"']
  else if c == '\\' then ['\\', '\\']
  else if c == '\n' then ['\\', 'n']
  else if c == '\r' then ['\\', 'r']
  else if c == '\t' then ['\\', 't']
  else if c.toNat < 0x20 then ['\\', 'u'] ++ (Decimal.hexWord c.toNat 4).toList
  else [c]

def needsEscape (c : Char) : Bool := c == '"' || c == '\\' || c.toNat < 0x20

def quote (s : String) : String :=
  if s.any needsEscape then "\"" ++ String.ofList (s.toList.flatMap escapeChar) ++ "\""
  else "\"" ++ s ++ "\""

def insertField (f : String × String) : List (String × String) → List (String × String)
  | [] => [f]
  | g :: rest => if f.1 ≤ g.1 then f :: g :: rest else g :: insertField f rest

mutual

def render : Json → String
  | null => "null"
  | unreadable => "null"
  | bool b => if b then "true" else "false"
  | int n => toString n
  | float x => Decimal.literal x
  | str s => quote s
  | arr items => "[" ++ ",".intercalate (renderAll items) ++ "]"
  | obj fields =>
    let sorted := (renderFields fields).foldr insertField []
    "\x7b" ++ ",".intercalate (sorted.map fun (k, v) => quote k ++ ":" ++ v) ++ "\x7d"

def renderAll : List Json → List String
  | [] => []
  | j :: rest => render j :: renderAll rest

def renderFields : List (String × Json) → List (String × String)
  | [] => []
  | (k, v) :: rest => (k, render v) :: renderFields rest

end

end LoopNest.Json

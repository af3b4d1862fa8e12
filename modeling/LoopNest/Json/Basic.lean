namespace LoopNest

inductive Json where
  | null
  | bool (b : Bool)
  | int (n : Int)
  | float (x : Float)
  | str (s : String)
  | arr (items : List Json)
  | obj (fields : List (String × Json))
  | unreadable

namespace Json

mutual

def isReadable : Json → Bool
  | unreadable => false
  | arr items => isReadableAll items
  | obj fields => isReadableFields fields
  | _ => true

def isReadableAll : List Json → Bool
  | [] => true
  | j :: rest => j.isReadable && isReadableAll rest

def isReadableFields : List (String × Json) → Bool
  | [] => true
  | (_, v) :: rest => v.isReadable && isReadableFields rest

end

def lookup (name : String) : List (String × Json) → Option Json
  | [] => none
  | (k, v) :: rest =>
    match lookup name rest with
    | some w => some w
    | none => if k == name then some v else none

def get? (j : Json) (name : String) : Option Json :=
  match j with
  | obj fields => lookup name fields
  | _ => none

def putField (name : String) (v : Json) : List (String × Json) → List (String × Json)
  | [] => [(name, v)]
  | (k, w) :: rest => if k == name then (k, v) :: rest else (k, w) :: putField name v rest

mutual

def collapse : Json → Json
  | arr items => arr (collapseAll items)
  | obj fields => obj ((collapseFields fields).foldl (fun acc (k, v) => putField k v acc) [])
  | j => j

def collapseAll : List Json → List Json
  | [] => []
  | j :: rest => collapse j :: collapseAll rest

def collapseFields : List (String × Json) → List (String × Json)
  | [] => []
  | (k, v) :: rest => (k, collapse v) :: collapseFields rest

end

end Json

end LoopNest

namespace LoopNest.Name

def isLetter (c : Char) : Bool :=
  ('a' ≤ c && c ≤ 'z') || ('A' ≤ c && c ≤ 'Z') || c == '_'

def isTail (c : Char) : Bool := isLetter c || ('0' ≤ c && c ≤ '9')

def isIdentifierChars : List Char → Bool
  | [] => false
  | c :: r => isLetter c && r.all isTail

def isIdentifier (s : String) : Bool := isIdentifierChars s.toList

def numbered (base : String) (n : Nat) : String := base ++ "_" ++ toString n

def firstFree (base : String) (taken : List String) : Nat → Nat → String
  | _, 0 => base
  | n, tries + 1 =>
    if taken.contains (numbered base n) then firstFree base taken (n + 1) tries
    else numbered base n

/-- `base` itself where it is free, else `base` with the least free number. One more number than there are
taken names is always enough. -/
def fresh (base : String) (taken : List String) : String :=
  if taken.contains base then firstFree base taken 1 (taken.length + 1) else base

end LoopNest.Name

namespace LoopNest.Text

structure LineMark where
  mark : String
  out : String := ""
  lineOpen : Bool := true

namespace LineMark

def markInner (mark : List Char) : List Char → List Char
  | [] => []
  | c :: r => if c == '\n' && !r.isEmpty then c :: (mark ++ markInner mark r) else c :: markInner mark r

/-- After a chunk the next character opens a line iff the chunk ends in a line feed. -/
def write (w : LineMark) (chunk : String) : LineMark :=
  let lead := if w.lineOpen && !chunk.isEmpty then w.mark else ""
  let body := String.ofList (markInner w.mark.toList chunk.toList)
  { w with out := w.out ++ lead ++ body, lineOpen := chunk.toList.getLast? == some '\n' }

def writeAll (mark : String) (chunks : List String) : String :=
  (chunks.foldl write { mark }).out

end LineMark

def indentation (depth : Nat) : String := String.ofList (List.replicate (2 * depth) ' ')

end LoopNest.Text

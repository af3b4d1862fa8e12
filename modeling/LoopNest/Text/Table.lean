import LoopNest.Decimal.Layout
import LoopNest.Text.Blank

namespace LoopNest.Text

structure Table where
  titles : List String
  rows : List (List String)

namespace Table

def cellWidth (cell : String) : Nat := ((lines cell).map String.length).foldl max 0

def widths : List (List String) → List Nat
  | [] => []
  | row :: rest => widen (row.map cellWidth) (widths rest)
where
  widen : List Nat → List Nat → List Nat
    | a :: as, b :: bs => max a b :: widen as bs
    | [], bs => bs
    | as, [] => as

def fill : List Nat → List String → List String
  | _, [] => []
  | _, [last] => [last]
  | w :: ws, cell :: rest => Decimal.padRight w cell :: fill ws rest
  | [], cells => cells

def lineText (ws : List Nat) (cells : List String) : String := " ".intercalate (fill ws cells) ++ "\n"

def rowText (ws : List Nat) (row : List String) : String :=
  let cells := row.map lines
  let height := (cells.map List.length).foldl max 0
  String.join ((List.range height).map fun i => lineText ws (cells.map fun c => c.getD i ""))

def rule (ws : List Nat) : String :=
  " ".intercalate (ws.map fun w => String.ofList (List.replicate w '-')) ++ "\n"

def text (t : Table) : String :=
  let ws := widths (t.titles :: t.rows)
  rowText ws t.titles ++ rule ws ++ String.join (t.rows.map (rowText ws))

end Table

end LoopNest.Text

/-!
# Tables drawn with lines

A grid has a row of titles, a line under it, any number of rows and a line at the end. Columns
are as wide as their widest cell, with a blank on either side, and a bar stands between them.

A cell may have several lines, so that a grid can stand in a cell of another.
-/

set_option autoImplicit false

namespace Risc32.Text

/-- To which side the text of a cell is moved. -/
inductive Side where
  | left
  | right
deriving DecidableEq, Repr

/-- Text that takes at least `width` characters, filled up with blanks. -/
def pad (side : Side) (width : Nat) (s : String) : String :=
  let blanks := String.ofList (List.replicate (width - s.length) ' ')
  match side with
  | .left => s ++ blanks
  | .right => blanks ++ s

/-- The lines of a cell, and to which side they are moved. -/
structure Cell where
  side : Side
  lines : List String
deriving DecidableEq, Repr

namespace Cell

def left (s : String) : Cell :=
  ⟨.left, [s]⟩

def right (s : String) : Cell :=
  ⟨.right, [s]⟩

def width (c : Cell) : Nat :=
  (c.lines.map (·.length)).foldl max 0

/-- A line of the cell as the grid shows it. -/
def line (c : Cell) (width i : Nat) : String :=
  " " ++ pad c.side width (c.lines.getD i "") ++ " "

end Cell

structure Grid where
  titles : List Cell
  rows : List (List Cell)
deriving DecidableEq, Repr

namespace Grid

def widths (g : Grid) : List Nat :=
  (List.range g.titles.length).map fun i =>
    ((g.titles :: g.rows).map fun row => ((row[i]?).map (·.width)).getD 0).foldl max 0

/-- A rule across the grid, with a joint between each two columns. -/
def rule (widths : List Nat) (joint : String) : String :=
  let bars := widths.map fun w => String.ofList (List.replicate (w + 2) '─')
  " " ++ joint.intercalate bars ++ " "

def rowLines (widths : List Nat) (row : List Cell) : List String :=
  let height := (row.map (·.lines.length)).foldl max 0
  (List.range height).map fun i =>
    " " ++ "│".intercalate (row.zipWith (fun c w => c.line w i) widths) ++ " "

def lines (g : Grid) : List String :=
  let widths := g.widths
  rowLines widths g.titles ++ [rule widths "┼"] ++ g.rows.flatMap (rowLines widths)
    ++ [rule widths "┴"]

end Grid

end Risc32.Text

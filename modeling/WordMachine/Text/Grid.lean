namespace WordMachine.Text

/-!
# Grids

A grid is a table of text cells with one row of titles, drawn with light lines.

* `Cell` — lines of text, set to the left or to the right of their column.
* `Grid.lines` — the drawn grid, every line of one width; a grid fits into a cell of another grid.
-/

/-- A cell of a grid. -/
structure Cell where
  lines : List String
  /-- Whether the text is set to the right of its column. -/
  onRight : Bool

namespace Cell

/-- A cell with one line set to the left. -/
def left (s : String) : Cell := ⟨[s], false⟩

/-- A cell with one line set to the right. -/
def right (s : String) : Cell := ⟨[s], true⟩

/-- A cell that holds drawn lines. -/
def ofLines (lines : List String) : Cell := ⟨lines, false⟩

/-- The width of the widest line. -/
def width (c : Cell) : Nat :=
  c.lines.foldl (fun w s => max w s.length) 0

/-- Line `i` of a cell filled up with spaces to a width; a line past the last is blank. -/
def line (c : Cell) (width i : Nat) : String :=
  let s := c.lines.getD i ""
  let fill := String.ofList (List.replicate (width - s.length) ' ')
  if c.onRight then fill ++ s else s ++ fill

end Cell

/-- A table of cells under one row of titles. -/
structure Grid where
  titles : List Cell
  rows : List (List Cell)

namespace Grid

/-- The width of each column, as many columns as there are titles. -/
def widths (g : Grid) : List Nat :=
  g.rows.foldl (fun ws row => ws.zipWith max (row.map Cell.width)) (g.titles.map Cell.width)

/-- A row is as high as its highest cell, and one space stands on both sides of each cell. -/
def rowLines (widths : List Nat) (row : List Cell) : List String :=
  let height := row.foldl (fun h c => max h c.lines.length) 0
  (List.range height).map fun i =>
    " " ++ "│".intercalate ((row.zip widths).map fun (c, w) => " " ++ c.line w i ++ " ") ++ " "

/-- A horizontal line with the given sign where it meets a column line. -/
def rule (widths : List Nat) (cross : String) : String :=
  " " ++ cross.intercalate (widths.map fun w => String.ofList (List.replicate (w + 2) '─')) ++ " "

/-- The drawn grid: the titles over a line, the rows, and a closing line. -/
def lines (g : Grid) : List String :=
  let ws := g.widths
  rowLines ws g.titles ++ [rule ws "┼"] ++ g.rows.flatMap (rowLines ws) ++ [rule ws "┴"]

end Grid

end WordMachine.Text

import FiniteAutomata.Text.Pen
import FiniteAutomata.Text.Width

/-!
# Grids of text

A `Grid` is a header and rows of cells, drawn with box characters:

    ╭───────┬────────╮
    │ State │ a      │
    ├───────┼────────┤
    │ →A    │ {A, B} │
    │ *B    │ -      │
    ╰───────┴────────╯

The first column is headed `State`. Short rows are filled up with empty cells. A column is as wide
as its widest line, a row as high as its highest cell, and cells are filled from the top left. A
grid without rows ends after the rule below its header.
-/

namespace FiniteAutomata

/-- The headers after the first column, and the cells of each row. -/
structure Grid where
  columns : List String
  rows : List (List String)
deriving DecidableEq

namespace Grid

/-- The greatest of some numbers. -/
def greatest (ns : List Nat) : Nat := ns.foldl max 0

/-- The header. -/
def header (g : Grid) : List String := "State" :: g.columns

/-- The number of columns, that of the longest row. -/
def width (g : Grid) : Nat := greatest ((g.header :: g.rows).map List.length)

/-- A row filled up to the given number of cells. -/
def pad (width : Nat) (row : List String) : List String :=
  row ++ List.replicate (width - row.length) ""

/-- The lines of each cell of a row. -/
def cellLines (g : Grid) (row : List String) : List (List String) :=
  (pad g.width row).map Text.standaloneLines

/-- The width of each column. -/
def columnWidths (g : Grid) : List Nat :=
  let cells := (g.header :: g.rows).map g.cellLines
  (List.range g.width).map fun n =>
    greatest (cells.map fun row => greatest ((row.getD n []).map Text.lineWidth))

/-- A horizontal rule. -/
def rule (left middle right : String) (widths : List Nat) : String :=
  left ++ middle.intercalate (widths.map fun w => String.ofList (List.replicate (w + 2) '─'))
    ++ right

/-- A line of a cell, padded to the width of its column. -/
def drawCell (width : Nat) (line : String) : String :=
  " " ++ line ++ String.ofList (List.replicate (width - Text.lineWidth line) ' ') ++ " "

/-- The drawn lines of a row. -/
def drawRow (widths : List Nat) (cells : List (List String)) : List String :=
  (List.range (greatest (cells.map List.length))).map fun n =>
    "│" ++ "│".intercalate (List.zipWith (fun w cell => drawCell w (cell.getD n "")) widths cells)
      ++ "│"

/-- The drawn lines of the grid. -/
def lines (g : Grid) : List String :=
  let widths := g.columnWidths
  let body := g.rows.flatMap fun row => drawRow widths (g.cellLines row)
  let bottom := if g.rows.isEmpty then [] else [rule "╰" "┴" "╯" widths]
  [rule "╭" "┬" "╮" widths] ++ drawRow widths (g.cellLines g.header)
    ++ [rule "├" "┼" "┤" widths] ++ body ++ bottom

/-- The drawn grid. -/
def render (g : Grid) : String := "\n".intercalate g.lines

end Grid

end FiniteAutomata

import Midend.Cli.Width

/-! # Text tables

Tables for terminals: columns are as wide as their widest cell, with two blanks between them. -/

namespace Midend

namespace Cli

/-- A cell of a table. -/
inductive Cell where
  /-- A text. -/
  | text (value : String)
  /-- A number, which is aligned to the right. -/
  | count (value : Nat)
  /-- Several names. -/
  | names (values : List String)
  deriving DecidableEq, Repr

namespace Cell

/-- A text that may be absent. -/
def ofOption (value : Option String) : Cell := .text (value.getD "")

/-- The text of a cell; an empty one is shown as a dash. -/
def render : Cell → String
  | .text value => if value.isEmpty then "-" else value
  | .count value => toString value
  | .names values => if values.isEmpty then "-" else " ".intercalate values

/-- Whether a cell is aligned to the right. -/
def isRightAligned : Cell → Bool
  | .count _ => true
  | _ => false

/-- The lines of a cell. -/
def lines (cell : Cell) : List String := cell.render.splitOn "\n"

/-- The number of columns that a cell takes. -/
def width (cell : Cell) : Nat := (cell.lines.map textWidth).foldl max 0

/-- A line of a cell, padded to a width. -/
def pad (cell : Cell) (width : Nat) (line : String) : String :=
  let blanks := "".pushn ' ' (width - textWidth line)
  if cell.isRightAligned then blanks ++ line else line ++ blanks

end Cell

/-- A table with a heading for each column. -/
structure Table where
  /-- The headings. -/
  headings : List String
  /-- The rows from top to bottom. -/
  rows : List (List Cell)
  deriving DecidableEq, Repr

namespace Table

/-- The larger of two widths, column by column. -/
def maxWidths : List Nat → List Nat → List Nat
  | first :: left, second :: right => max first second :: maxWidths left right
  | [], right => right
  | left, [] => left

/-- All rows, the headings first. -/
def allRows (table : Table) : List (List Cell) := table.headings.map .text :: table.rows

/-- The widths of the columns. -/
def widths (table : Table) : List Nat :=
  table.allRows.foldl (fun widths row => maxWidths widths (row.map Cell.width)) []

/-- A text without the blanks at its end. -/
def trimEnd (text : String) : String :=
  String.ofList (text.toList.reverse.dropWhile fun char => inRanges blankRanges char.toNat).reverse

/-- One of the lines of a row. -/
def renderLine (widths : List Nat) (row : List Cell) (index : Nat) : String :=
  let cells := (row.zip widths).map fun (cell, width) =>
    cell.pad width (cell.lines.getD index "")
  "  " ++ trimEnd ("  ".intercalate cells) ++ "\n"

/-- The lines of a row. -/
def renderRow (widths : List Nat) (row : List Cell) : String :=
  let height := (row.map fun cell => cell.lines.length).foldl max 0
  String.join ((List.range height).map (renderLine widths row))

/-- The text of a table, indented by two blanks. -/
def render (table : Table) : String :=
  String.join (table.allRows.map (renderRow table.widths))

end Table

end Cli

end Midend

/-!
# Tables

Tables with a title row, drawn with box characters. A column is as wide as the widest line of its
cells, every character counting one.

```text
    Address │ Contents
 ───────────┼──────────
     S[0] = │ 1
 ───────────┴──────────
```

## Main definitions

* `Cell`, `Table` — the lines of a cell with their alignment, and a table of cells.
* `Table.render` — the drawing.
-/

namespace ConsMachine.Text

/-- On which side of the column a line stands. -/
inductive Align where
  | left
  | right
deriving DecidableEq

/-- A line without the carriage return that may stand before its end. -/
def dropReturn (line : List Char) : List Char :=
  if line.getLast? = some '\r' then line.dropLast else line

/-- The lines of a text. A line end closes a line, so none comes after the last line end. -/
def splitLines (text : String) : List String :=
  let lines := text.toList.splitOn '\n'
  let lines := if lines.getLast? = some [] then lines.dropLast else lines
  lines.map fun line => String.ofList (dropReturn line)

structure Cell where
  lines : List String
  align : Align

namespace Cell

def ofText (text : String) (align : Align) : Cell := ⟨splitLines text, align⟩

def left (text : String) : Cell := ofText text .left

def right (text : String) : Cell := ofText text .right

def width (c : Cell) : Nat := c.lines.foldl (fun width line => max width line.length) 0

/-- Line `i` of the cell, filled up to the width of its column. Below its last line a cell is
blank. -/
def line (c : Cell) (width i : Nat) : String :=
  let text := c.lines.getD i ""
  let fill := "".pushn ' ' (width - text.length)
  match c.align with
  | .left => text ++ fill
  | .right => fill ++ text

end Cell

structure Table where
  titles : List Cell
  rows : List (List Cell)

namespace Table

/-- The widths of the columns. -/
def widths (t : Table) : List Nat :=
  t.rows.foldl (fun widths row => widths.zipWith max (row.map Cell.width))
    (t.titles.map Cell.width)

/-- The lines of a row; it has one even if all its cells are empty. -/
def rowLines (widths : List Nat) (row : List Cell) : List String :=
  let height := row.foldl (fun height cell => max height cell.lines.length) 1
  (List.range height).map fun i =>
    let cells := row.zipWith (fun cell width => " " ++ cell.line width i ++ " ") widths
    " " ++ "│".intercalate cells ++ " "

/-- A horizontal rule, with `crossing` where the columns meet. -/
def rule (widths : List Nat) (crossing : String) : String :=
  " " ++ crossing.intercalate (widths.map fun width => "".pushn '─' (width + 2)) ++ " "

/-- The lines of the drawing: titles, a rule, the rows, a rule. -/
def lines (t : Table) : List String :=
  let widths := t.widths
  rowLines widths t.titles ++ [rule widths "┼"] ++ t.rows.flatMap (rowLines widths) ++
    [rule widths "┴"]

def render (t : Table) : String := String.join (t.lines.map (· ++ "\n"))

end Table

end ConsMachine.Text

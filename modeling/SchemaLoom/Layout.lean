import SchemaLoom.Text.Wrap

/-!
# Layout of terminal text

Blocks of lines padded to one width, and tables with ruled borders. A cell of a
table may have several lines; its row is then as high as its highest cell.
-/

namespace SchemaLoom.Layout

/-- The lines of a text; at least one. -/
def lines : Text → List Text
  | [] => [[]]
  | r :: rest =>
    match lines rest with
    | [] => [[r]]
    | l :: ls => if r = .char '\n' then [] :: l :: ls else (r :: l) :: ls

/-- A return before a line feed belongs to it. -/
def joinReturns : Text → Text
  | [] => []
  | .char '\r' :: .char '\n' :: rest => .char '\n' :: joinReturns rest
  | r :: rest => r :: joinReturns rest

/-- Tabs are four blanks wide. -/
def expandTabs (t : Text) : Text :=
  t.flatMap fun r => if r = .char '\t' then Text.spaces 4 else [r]

/-- A text in the form in which it is laid out. -/
def settle (t : Text) : Text := joinReturns (expandTabs t)

/-- A text filled with blanks to a number of columns. -/
def fill (width : Nat) (t : Text) : Text := t ++ Text.spaces (width - t.columns)

/-- The columns of the widest line. -/
def widest (ls : List Text) : Nat := ls.foldl (fun w l => max w l.columns) 0

/-- The lines of a text, all filled to the widest of them. -/
def block (t : Text) : Text :=
  let ls := lines (settle t)
  Text.join "\n" (ls.map (fill (widest ls)))

/-! ### Tables

A column is as wide as the widest line of its cells, with a blank on both sides. A line
that still does not fit, because it is measured differently once it is shown, is wrapped.
The height of a row is settled before that, from the cells as they were given.
-/

/-- The lines that a cell is given in a column with room for `limit` columns. -/
def cellHeight (limit : Nat) (cell : Text) : Nat :=
  (lines (joinReturns cell)).foldl (fun n l => n + (l.breaks limit + 1)) 0

/-- `height` lines of a cell, all of them at least `width` columns. -/
def cellLines (width height : Nat) (cell : Text) : List Text :=
  let ls := (lines ((settle cell).wrap (width - 2))).map fun (l : Text) => " " ++ l ++ " "
  let ls := ls ++ List.replicate (height - ls.length) []
  (ls.map (fill (max width (widest ls)))).take height

/-- A border line: one column of dashes for each column of a cell. -/
def rule (left cross right : Text) (widths : List Nat) : Text :=
  left ++ Text.join cross (widths.map fun w => List.replicate w (.char '─')) ++ right

/-- The lines of a row between upright borders. -/
def rowLines (widths : List Nat) (cells : List Text) : List Text :=
  let height := ((widths.zip cells).map fun (w, c) => cellHeight (w - 2) c).foldl max 1
  let columns := (widths.zip cells).map fun (w, c) =>
    let ls := cellLines w height c
    ls.map (fill (widest ls))
  (List.range height).map fun i =>
    "│" ++ Text.join "│" (columns.map fun ls => ls.getD i []) ++ "│"

/-- The columns a cell takes without its blanks. -/
def cellColumns (cell : Text) : Nat := widest (lines cell)

/-- The width of every column of a table, the blanks of its cells included. -/
def columnWidths (header : List Text) (rows : List (List Text)) : List Nat :=
  let widen (ws : List Nat) (cells : List Text) : List Nat :=
    (ws.zip cells).map fun (w, c) => max w (cellColumns c)
  (rows.foldl widen (header.map cellColumns)).map (· + 2)

def table (header : List Text) (rows : List (List Text)) : Text :=
  let widths := columnWidths header rows
  block <| Text.join "\n" <|
    [rule "┌" "┬" "┐" widths] ++ rowLines widths header ++ [rule "├" "┼" "┤" widths] ++
    rows.flatMap (rowLines widths) ++ [rule "└" "┴" "┘" widths]

end SchemaLoom.Layout

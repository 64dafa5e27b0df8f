/-!
# Tables in Markdown

The first row is the header. Every row is filled up with empty cells to the length of the longest one,
and every column is as wide as its widest cell.
-/

namespace Workings.Text.Table

/-- The cells of a row up to the given number of columns. -/
def padRow (columns : Nat) (row : List String) : List String :=
  row ++ List.replicate (columns - row.length) ""

/-- The widths of the columns of rows of equal length. -/
def widths (columns : Nat) (rows : List (List String)) : List Nat :=
  (List.range columns).map fun column =>
    (rows.map fun row => (row.getD column "").length).foldl max 0

/-- A cell filled up with blanks on the right. -/
def padCell (width : Nat) (cell : String) : String :=
  cell ++ String.ofList (List.replicate (width - cell.length) ' ')

/-- A row of cells between bars. -/
def line (widths : List Nat) (row : List String) : String :=
  "| " ++ " | ".intercalate (List.zipWith padCell widths row) ++ " |"

/-- The rule below the header. -/
def rule (widths : List Nat) : String :=
  "|" ++ "|".intercalate (widths.map fun width =>
    String.ofList (List.replicate (width + 2) '-')) ++ "|"

/-- The text of a table. A table without cells is empty. -/
def markdown (rows : List (List String)) : String :=
  let columns := (rows.map List.length).foldl max 0
  match rows.map (padRow columns) with
  | [] => ""
  | header :: body =>
    if columns = 0 then
      ""
    else
      let widths := widths columns (header :: body)
      "\n".intercalate (line widths header :: rule widths :: body.map (line widths))

end Workings.Text.Table

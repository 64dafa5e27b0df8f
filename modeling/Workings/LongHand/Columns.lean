import Workings.LongHand.PlaceValue

/-!
# Adding in columns

Decimals are written below each other with their points aligned and added column by column from the
right. A column gives its last digit, and the rest of its sum, rounded down, goes to the next column.
So every digit is between 0 and 9 also when numbers are subtracted, and what goes to the next column is
then a borrowing.
-/

namespace Workings

/-- One number of a column addition: its sign and its digits. A value without digits has letters in
their place. -/
def Number.row (a : Number) : Decimal :=
  match a.decimal? with
  | some d => d
  | none =>
    match wordsFor a.toFloat with
    | '-' :: word => ⟨true, word, []⟩
    | word => ⟨false, word, []⟩

/-- The sum of one column: its place, its digits and the carry before it, their sum, and the carry to
the next column. -/
structure Column where
  place : Int
  values : List Int
  sum : Int
  carry : Int

/-- The digit written below a column. -/
def Column.digit (column : Column) : Int :=
  column.sum % 10

/-- A column addition: the numbers, the digits before and after the point, and the columns from right
to left. -/
structure ColumnSum where
  rows : List Decimal
  left : Nat
  right : Nat
  columns : List Column

namespace ColumnSum

/-- The digits of a row filled up with zeros to `left` and `right` places. -/
def aligned (left right : Nat) (row : Decimal) : List Char :=
  zeros (left - row.whole.length) ++ row.whole ++ row.fraction ++ zeros (right - row.fraction.length)

/-- The digit of a row at a place counted from the right, with the sign of the row. -/
def digitAt? (left right place : Nat) (row : Decimal) : Option Int := do
  let c ← (aligned left right row).reverse[place]?
  if c.isDigit then some (Binary64.signed row.negative (Number.digitValue c)) else none

/-- The digits of every column, the last row first. -/
def digitColumns (left right : Nat) (rows : List Decimal) : List (List Int) :=
  if rows.isEmpty then []
  else (List.range (left + right)).map fun place =>
    rows.reverse.filterMap (digitAt? left right place)

/-- Adds columns from right to left. -/
def addColumns (place carry : Int) : List (List Int) → List Column
  | [] => []
  | digits :: rest =>
    let values := if carry = 0 then digits else digits ++ [carry]
    let sum := values.foldr (· + ·) 0
    ⟨place, values, sum, sum / 10⟩ :: addColumns (place + 1) (sum / 10) rest

/-- The column addition of a list of numbers. -/
def of (components : List Number) : ColumnSum :=
  let rows := components.map Number.row
  let left := if rows.isEmpty then 1 else (rows.map (·.whole.length)).foldl max 0
  let right := (rows.map (·.fraction.length)).foldl max 0
  ⟨rows, left, right, addColumns (-(right : Int)) 0 (digitColumns left right rows)⟩

/-- What the last column carries. -/
def carry (s : ColumnSum) : Int :=
  (s.columns.getLast?.map Column.carry).getD 0

/-- The number that digits from right to left stand for. -/
def valueOf : List Int → Int
  | [] => 0
  | digit :: rest => digit + 10 * valueOf rest

/-- The digits written, read as an integer. -/
def written (s : ColumnSum) : Int :=
  valueOf (s.columns.map Column.digit)

/-- The greatest 128-bit integer. -/
def maxWide : Int := Int.ofNat (Nat.pow 2 127) - 1

/-- The sum times `10 ^ right`: the digits with the last carry in front of them, or taken off if it is
negative. There is none without columns or beyond 128 bits. -/
def total? (s : ColumnSum) : Option Int :=
  let place := Int.ofNat (Nat.pow 10 (s.left + s.right))
  if s.columns.isEmpty then
    none
  else if 0 ≤ s.carry then
    let total := s.written + s.carry * place
    if total ≤ maxWide then some total else none
  else if s.written ≤ maxWide ∧ -s.carry * place ≤ maxWide then
    some (s.written + s.carry * place)
  else
    none

/-- `scaled / 10 ^ places` as a number: an integer if there are no places, and the nearest float
otherwise. -/
def unscale (scaled : Int) (places : Nat) : Number :=
  if places = 0 then
    .ofInt scaled
  else
    let magnitude := Float.ofScientific scaled.natAbs true places
    .float (if scaled < 0 then -magnitude else magnitude)

/-- The rows below each other, with the points aligned and, if there is a negative one, the signs. -/
def alignment (s : ColumnSum) : String :=
  let signs := s.rows.any (·.negative)
  "\n".intercalate (s.rows.map fun row =>
    let digits := aligned s.left s.right row
    let line := if s.right = 0 then digits
      else digits.take (digits.length - s.right) ++ '.' :: digits.drop (digits.length - s.right)
    (if signs then (if row.negative then "-" else " ") else "") ++ String.ofList line)

/-- Values with their signs between them, as in `a + b - c`. -/
def signedValues : List Int → String
  | [] => "0"
  | first :: rest =>
    toString first ++ String.join (rest.map fun value =>
      (if value < 0 then " - " else " + ") ++ toString value.natAbs)

end ColumnSum

end Workings

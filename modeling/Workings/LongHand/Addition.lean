import Workings.LongHand.Columns
import Workings.LongHand.Shortcut

/-!
# Long addition

Two numbers with small coefficients are added in one step. Others are split into their components,
which are then added column by column (`addComponents`), every column with a remark on what it carries
or borrows.
-/

namespace Workings

open Render (braced)

/-- The sum of numbers as it stands in the tree. -/
def sumOfNumbers (values : List Number) : Expr :=
  .sum (values.map .num)

/-- The name of a place in a remark. -/
def placeName (place : String) : String :=
  "$10^" ++ braced place ++ "$: "

/-- The remark on a column, unless nothing happens in it. -/
def remarkOnColumn (column : Column) : Work Unit := do
  if !(column.sum == 0 && column.carry == 0 && decide (1 < column.values.length)) then
    let sum := toString column.sum
    let digit := toString column.digit
    let addition := if 1 < column.values.length
      then "$" ++ ColumnSum.signedValues column.values ++ " = " ++ sum ++ "$"
      else "$" ++ sum ++ "$"
    let suffix ←
      if 0 < column.carry then
        let carry := toString column.carry
        Work.wording "addition_carry_suffix"
          (", so carry " ++ carry ++ " to the next column.")
          (", carry " ++ carry ++ ".")
          [("carry", carry)]
      else if column.carry < 0 then
        let borrow := toString (-column.carry)
        Work.wording "addition_borrow_suffix"
          (", so borrow " ++ borrow ++ " from the next column and write " ++ digit ++ " here.")
          (", borrow " ++ borrow ++ "; digit becomes " ++ digit ++ ".")
          [("borrow", borrow), ("digit", digit)]
      else
        pure ""
    if (← Work.options).showPlaceValueSteps then
      Work.remark (placeName (toString column.place) ++ addition ++ suffix)

/-- The remark on what the last column carries. -/
def remarkOnCarry (left : Nat) (carry : Int) : Work Unit := do
  if 0 < carry && (← Work.options).showPlaceValueSteps then
    let place := toString left
    let carry := toString carry
    Work.remark (← Work.wording "addition_carry_row"
      (placeName place ++ carry ++ " (carry from the previous column)")
      (placeName place ++ "carry " ++ carry)
      [("power", place), ("carry", carry)])

/-- Adds the components of a sum column by column. -/
def addComponents (components : List Number) : Work Number := do
  let columns := ColumnSum.of components
  if (← Work.options).showAlignment then
    Work.remark ("```\n" ++ columns.alignment ++ "\n```")
  columns.columns.forM remarkOnColumn
  remarkOnCarry columns.left columns.carry
  let result := match columns.total? with
    | some total => ColumnSum.unscale total columns.right
    | none => components.foldl (· + ·) 0
  Work.remark (← Work.wording "addition_put_together"
    ("Combine the place-value columns to obtain $" ++ result.text ++ "$.")
    ("Result: $" ++ result.text ++ "$.")
    [("result", result.text)])
  Work.change (sumOfNumbers components) (.num result)
  return result

/-- Whether two coefficients are small, or one of them is `1`. -/
def areSimple (a b : Number) (limit : Int64) : Bool :=
  (a.abs.le (.int limit) && b.abs.le (.int limit)) || a == (1 : Number) || b == (1 : Number)

/-- Adds two numbers and puts the result in the place of their sum in the tree. -/
def add (a b : Number) : Work Number := do
  let expression := sumOfNumbers [a, b]
  let quick := a + b
  let options ← Work.options
  let operation := if b.isNegative then Operation.subtraction else Operation.addition
  if !a.isFinite || !b.isFinite then
    Work.change expression (.num quick)
    return quick
  else if options.leavesToCalculator operation a b (some quick) then
    let message ← calculatorMessage operation expression (.num quick) [a, b]
    Work.explain expression (.num quick) message
    return quick
  else if areSimple a.scale.1 b.scale.1 options.implicitAdditionLimit then
    Work.change expression (.num quick)
    return quick
  else
    let components := a.components ++ b.components
    if options.showComplexity then
      Work.remark (← Work.wording "addition_decompose_intro"
        ("Decompose $" ++ a.text ++ "$ and $" ++ b.text ++ "$ into place-value components.")
        ("Use place-value decomposition for $" ++ a.text ++ "$ and $" ++ b.text ++ "$.")
        [("a", a.text), ("b", b.text)])
    Work.change expression (sumOfNumbers components)
    let result ←
      if options.slowStepAddition then
        addComponents components
      else
        Work.change (sumOfNumbers components) (.num quick)
        pure quick
    Work.pause
    return result

end Workings

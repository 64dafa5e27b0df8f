import Workings.LongHand.PlaceValue
import Workings.Sheet.Basic

/-!
# What is too large to work out by hand

Operands with many digits are left to the calculator, which takes one step, and results with too many
digits are estimated by their order of magnitude.
-/

namespace Workings

/-- The number of digits of `base ^ exponent`, estimated without computing it. There is none unless the
exponent is a natural number. -/
def powerDigits? (base exponent : Number) : Option Nat :=
  match exponent.toWord? with
  | none => none
  | some e =>
    if e < 0 then
      none
    else
      let magnitude := base.toFloat.abs
      if magnitude == 0.0 || magnitude == 1.0 then
        some 1
      else do
        let whole ← (Binary64.ofFloat (Float.ofInt e.toInt * magnitude.log10)).truncate?
        let digits ← (Binary64.ofFloat (Float.ofInt whole + 1.0)).truncate?
        return min (max digits 1).toNat Number.maxComplexity

/-- `10 ^ order` with a sign. A negative order counts as zero. -/
def orderOfMagnitude (order : Int64) (negative : Bool) : Expr :=
  let magnitude := Expr.buildPow 10 (.int (max order 0))
  if negative then Expr.buildProd [Expr.minusOne, magnitude] else magnitude

namespace Options

/-- Whether an operation on two numbers is left to the calculator. -/
def leavesToCalculator (options : Options) (operation : Operation) (a b : Number)
    (result : Option Number) : Bool :=
  let calculator := options.calculator
  calculator.enabled &&
    (decide (calculator.operandThreshold operation < max a.complexity b.complexity) ||
      result.any (calculator.resultThreshold < ·.complexity))

/-- Whether a power is left to the calculator. -/
def leavesPowerToCalculator (options : Options) (base exponent : Number) : Bool :=
  let calculator := options.calculator
  calculator.enabled &&
    (decide (calculator.powerBaseThreshold < base.complexity) ||
      decide (calculator.powerExponentThreshold < exponent.complexity) ||
      (powerDigits? base exponent).any (calculator.resultThreshold < ·))

end Options

/-- The single step of the calculator. An empty template falls back to the phrasing. -/
def calculatorMessage (operation : Operation) (expression result : Expr) (operands : List Number) :
    Work String := do
  let sheet ← get
  let template := sheet.options.calculator.templateFor operation sheet.options.style
  let operand (index : Nat) : String := (operands[index]?.map fun n => sheet.write (.num n)).getD ""
  let payload := [
    ("operation", Named.name operation),
    ("expression", sheet.write expression),
    ("result", sheet.write result),
    ("lhs", operand 0),
    ("rhs", operand 1)]
  if template.isEmpty then
    Work.ask (sheet.phrasing.message "calculator.fallback" (some "$$ {expression} = {result} $$")
      payload)
  else
    return Template.fill template payload

end Workings

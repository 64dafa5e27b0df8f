import Workings.Expr.Parts
import Workings.LongHand.Shortcut
import Workings.Simplify.Siblings

/-!
# Powers

The special cases of a power are tried in a fixed order: a base of zero, a base of one, a base of minus
one with an integer exponent, a root, an exponent beyond the limit, a result with too many digits, a
power for the calculator, a small integer exponent, which makes the power a product of equal factors,
and any other power of numbers. Other powers are normalized.
-/

namespace Workings

namespace Simplify

open Render (braced)

/-- The fault of a power without a real value. -/
def noRealValue {α : Type} (current : Expr) : Work α := do
  throw (.undefined ("$" ++ (← Work.written current) ++ "$ has no real value.") current)

/-- The keys and words for a power that cannot be represented. -/
structure OverflowWords where
  infinityKey : String
  zeroKey : String
  symbolicKey : String
  /-- What happened, in full and for the form that stays symbolic. -/
  verbose : String
  verboseSymbolic : String
  /-- What happened, in short. -/
  concise : String
  conciseSymbolic : String

/-- An exponent beyond the limit. -/
def OverflowWords.limit : OverflowWords where
  infinityKey := "overflow_infinity"
  zeroKey := "overflow_zero"
  symbolicKey := "overflow_symbolic"
  verbose := "is outside the configured exponent limit"
  verboseSymbolic := "is outside the configured numeric exponent limit"
  concise := "Exponent too large"
  conciseSymbolic := "exponent limit"

/-- A computation that overflowed. -/
def OverflowWords.result : OverflowWords where
  infinityKey := "overflow_result_infinity"
  zeroKey := "overflow_result_zero"
  symbolicKey := "overflow_result_symbolic"
  verbose := "overflowed during numeric evaluation"
  verboseSymbolic := "overflowed during numeric evaluation"
  concise := "Numeric overflow"
  conciseSymbolic := "numeric overflow"

/-- Takes a power that cannot be represented for a value. -/
def overflowAs (words : OverflowWords) (key sign : String) (current value : Expr) : Work Expr := do
  let message ← Work.wording key
    ("${previous}$ " ++ words.verbose ++ ", so we'll approximate it as $" ++ sign ++ "$.")
    (words.concise ++ "; approximate as $" ++ sign ++ "$.")
    []
  Work.estimate current value message
  return value

/-- A power that cannot be represented: infinite, zero or left as it is. -/
def overflow (words : OverflowWords) (current : Expr) : Work Expr := do
  match (← Work.options).overflow with
  | .infinity => overflowAs words words.infinityKey "\\infty" current (.num (.float infinity))
  | .zero => overflowAs words words.zeroKey "0" current 0
  | .symbolic =>
    let text ← Work.written current
    Work.remark (← Work.wording words.symbolicKey
      ("$" ++ text ++ "$ " ++ words.verboseSymbolic ++ ", so we'll keep it in symbolic form.")
      ("Keep $" ++ text ++ "$ symbolic due to " ++ words.conciseSymbolic ++ ".")
      [("expression", text)])
    return current

/-- The value of a power of numbers goes to `value`. A power without a value is a fault or an
overflow. -/
def powerOfNumbers (current : Expr) (base exponent : Number) (value : Expr → Work Expr) :
    Work Expr :=
  match base.pow? exponent with
  | some n => if n.isNaN then noRealValue current else value (.num n)
  | none => overflow .result current

/-- `0 ^ 0`. -/
def zeroPowerZero (current : Expr) : Work Expr := do
  match (← Work.options).zeroPowerZero with
  | .one =>
    let message ← Work.wording "zero_power_zero_one" "$0^0$ is configured to evaluate to $1$."
      "$0^0 \\rightarrow 1$ by configuration." []
    Work.explain current 1 message
    return 1
  | .zero =>
    let message ← Work.wording "zero_power_zero_zero" "$0^0$ is configured to evaluate to $0$."
      "$0^0 \\rightarrow 0$ by configuration." []
    Work.explain current 0 message
    return 0
  | .undefined =>
    let message ← Work.wording "zero_power_zero_undefined"
      "0^0 is undefined in this evaluator configuration." "0^0 is undefined." []
    throw (.undefined message current)

/-- `0 ^ x` for an exponent of unknown sign. -/
def zeroPowerSymbolic (current symbolic : Expr) : Work Expr := do
  let text ← Work.written symbolic
  Work.report .partly "zero_base_symbolic_exponent"
  let message ← Work.wording "zero_power_symbolic"
    ("Keep $" ++ text ++ "$ symbolic because the exponent's sign is unknown.")
    "Keep 0^x symbolic when exponent sign is unknown."
    [("expression", text)]
  Work.explain current symbolic message
  return symbolic

/-- `0 ^ x`, decided by the sign of `x`, which is found on the side. -/
def zeroBase (simplify : Simplifier) (base exponent : Expr) : Work Expr := do
  let current := Expr.pow base exponent
  let (preview, _) ← Work.onTheSide exponent (← get).bindings (simplify exponent)
  match preview with
  | .num e =>
    if e.isZero then
      zeroPowerZero current
    else if 0.0 < e.toFloat then
      let message ← Work.wording "zero_power_positive" "0 raised to a positive power is 0."
        "0^n is 0 for positive n." [("exponent", e.text)]
      Work.explain current 0 message
      return 0
    else if e.isNegative then
      let message ← Work.wording "zero_power_negative" "0 raised to a negative power is undefined."
        "0^n is undefined for negative n." [("exponent", e.text)]
      throw (.undefined message current)
    else
      zeroPowerSymbolic current (.pow base preview)
  | _ => zeroPowerSymbolic current (.pow base preview)

/-- `1 ^ x`. -/
def oneBase (simplify : Simplifier) (base exponent : Expr) : Work Expr := do
  let exponent ← simplify exponent
  let message ← Work.wording "base_trivial_power" "1 to any power is 1."
    "1 raised to any exponent is 1."
    [("base", ← Work.written base), ("exponent", ← Work.written exponent)]
  Work.explain (.pow base exponent) 1 message
  return 1

/-- `(-1) ^ n` for an integer `n`. -/
def minusOnePower (current : Expr) (exponent : Number) : Work Expr := do
  let even := exponent.isEven
  let (parity, sign) := if even then ("even", "1") else ("odd", "-1")
  let result : Expr := if even then 1 else Expr.minusOne
  let message ← Work.wording "minus_one_power_parity"
    ("When $-1$ is raised to an even power, the result is $1$. When $-1$ is raised to an odd " ++
      "power, the result is $-1$. Since in this case, our power is " ++ exponent.text ++
      ", which is " ++ parity ++ ", the result is $" ++ sign ++ "$.")
    ("$-1^" ++ braced exponent.text ++ "$ depends on parity; result is $" ++ sign ++ "$.")
    [("exponent", exponent.text), ("result", sign)]
  Work.explain current result message
  return result

/-- A root, computed in one step. The exponent is simplified on the side. -/
def root (simplify : Simplifier) (base exponent : Expr) : Work Expr := do
  let current := Expr.pow base exponent
  let (simplified, _) ← Work.onTheSide exponent (← get).bindings (simplify exponent)
  let finish (result : Expr) : Work Expr := do
    Work.change current result
    return result
  match base, simplified with
  | .num b, .num e => powerOfNumbers current b e finish
  | _, _ => finish (.pow base simplified)

/-- Estimates a power with too many digits by logarithms to base ten. -/
def estimatePower (current : Expr) (base exponent : Number) (digits : Nat) : Work Expr := do
  let negative := base.isNegative && exponent.toWord?.any (·.toInt % 2 != 0)
  let estimate := orderOfMagnitude (Int64.ofNat digits - 1) negative
  let magnitude := base.abs.toFloat
  let logarithm := if 0.0 < magnitude then magnitude.log10 else 0.0
  let scaled := exponent.toFloat * logarithm
  let (b, e) := (base.text, exponent.text)
  let log (argument : String) : String := "\\log_" ++ braced "10" ++ "(|" ++ argument ++ "|)"
  let power := b ++ "^" ++ braced e
  Work.report .partly "order_of_magnitude_estimation"
  Work.remark "Exact exponentiation is too large, so estimate using base-10 logarithms."
  Work.remark ("$" ++ log power ++ " = " ++ e ++ "\\cdot" ++ log b ++ "$.")
  Work.remark ("$" ++ log b ++ " \\approx " ++ Number.generalText logarithm 6 ++ "$, so $" ++
    log power ++ " \\approx " ++ Number.generalText scaled 6 ++ "$.")
  Work.estimate current estimate
    ("So we use an order-of-magnitude estimate of $" ++ (← Work.written estimate) ++ "$.")
  return estimate

/-- Whether an exponent is beyond the limit for a base. -/
def isBeyondLimit (options : Options) (base exponent : Number) : Bool :=
  decide (Float.ofInt options.maxExponent.toInt < exponent.abs.toFloat) &&
    !(base.abs == (0 : Number)) && !(base.abs == (1 : Number))

/-- The number of equal factors that a power becomes, if it becomes a product. -/
def expansion? (options : Options) (exponent : Number) : Option Nat :=
  if options.expandPowers && exponent.isInteger && decide (1.0 < exponent.toFloat) then
    match exponent.toWord? with
    | some n => if n.toInt ≤ options.expansionLimit then some n.toInt.toNat else none
    | none => none
  else
    none

/-- A power of two numbers. -/
def numericPower (simplify : Simplifier) (current : Expr) (base exponent : Number) :
    Work Expr := do
  let options ← Work.options
  if isBeyondLimit options base exponent then
    overflow .limit current
  else
    match (do
      let threshold ← options.magnitudeThreshold
      let digits ← powerDigits? base exponent
      if threshold < digits then some digits else none) with
    | some digits => estimatePower current base exponent digits
    | none =>
      if options.leavesPowerToCalculator base exponent then
        powerOfNumbers current base exponent fun result => do
          let message ← calculatorMessage .power current result [base, exponent]
          Work.explain current result message
          return result
      else
        match expansion? options exponent with
        | some count =>
          let expanded := Expr.prod (List.replicate count (.num base))
          Work.change current expanded
          simplify expanded
        | none =>
          powerOfNumbers current base exponent fun result => do
            Work.changeIfPresent { part := current, result := result }
            return result

/-- Whether an exponent is one divided by something. -/
def isRootExponent (exponent : Expr) : Bool :=
  exponent.fraction?.any fun fraction => fraction.1.isValue 1

/-- Simplifies a power. The exponent is kept in a block while the base is simplified, so that a root is
still recognized afterwards. -/
def power (simplify : Simplifier) (base exponent : Expr) : Work Expr := do
  let (base, exponent) ← Work.withBlock [exponent] fun id => do
    let base ← simplify base
    return (base, ((← get).blockItem? id 0).getD exponent)
  if base.isValue 0 then
    zeroBase simplify base exponent
  else if base.isValue 1 then
    oneBase simplify base exponent
  else if isRootExponent exponent && !base.isValue (-1) then
    root simplify base exponent
  else
    let exponent ← simplify exponent
    let current := Expr.pow base exponent
    match base, exponent with
    | .num b, .num e =>
      if b == (-1 : Number) && e.isInteger then minusOnePower current e
      else numericPower simplify current b e
    | _, _ =>
      let result := Expr.buildPow base exponent
      become current result
      return result

end Simplify

end Workings

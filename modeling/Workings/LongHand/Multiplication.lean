import Workings.LongHand.Addition
import Workings.Text.Table

/-!
# Long multiplication

Products of small numbers take one step, and products with too many digits are estimated. A factor
close to a power of ten is split into that power and a small rest (`roundAndAdjust`). Any other product
is worked out at length: both factors are scaled to integers and split into components, the products of
components are written into a table, added column by column and scaled back.
-/

namespace Workings

open Render (braced)

/-- The product of two numbers as it stands in the tree. -/
def productOfNumbers (a b : Number) : Expr :=
  .prod [.num a, .num b]

/-- Estimates a product by its number of digits if it has more than the options allow. -/
def estimateProduct? (a b : Number) : Work (Option Expr) := do
  match (← Work.options).magnitudeThreshold with
  | none => return none
  | some threshold =>
    let digits := a.complexity + b.complexity
    if digits ≤ threshold then
      return none
    let estimate := orderOfMagnitude (Int64.ofNat digits - 1) (a.isNegative != b.isNegative)
    let (da, db) := (toString a.complexity, toString b.complexity)
    Work.report .partly "order_of_magnitude_estimation"
    Work.remark "Exact multiplication is too large, so estimate by digit count."
    Work.remark ("$" ++ a.text ++ "$ has about " ++ da ++ " digits and $" ++ b.text ++
      "$ has about " ++ db ++ " digits.")
    Work.remark ("A product of numbers with " ++ da ++ " and " ++ db ++ " digits has about " ++
      toString (digits - 1) ++ " to " ++ toString digits ++ " digits.")
    Work.estimate (productOfNumbers a b) estimate
      ("So we use an order-of-magnitude estimate of $" ++ (← Work.written estimate) ++ "$.")
    return some estimate

/-- The power of ten with one more digit than a number has characters. -/
def nextPowerOfTen (a : Number) : Number :=
  powerOfTen a.chars.length

/-- A factor split into a power of ten less a small distance. -/
structure NearPower where
  power : Number
  distance : Number
  other : Number
  /-- Whether the split factor comes first. -/
  first : Bool

namespace NearPower

/-- The split of the factor that is closer to a power of ten, if it is close enough. -/
def find? (limit a b : Number) : Option NearPower :=
  let da := nextPowerOfTen a - a
  let db := nextPowerOfTen b - b
  if da.lt limit && limit.lt a && da.lt db then some ⟨nextPowerOfTen a, da, b, true⟩
  else if db.lt limit && limit.lt b && db.lt da then some ⟨nextPowerOfTen b, db, a, false⟩
  else none

/-- The product of what comes of the split factor and the other factor, in their order. -/
def ordered (n : NearPower) (split other : Expr) : Expr :=
  if n.first then .prod [split, other] else .prod [other, split]

end NearPower

/-- Multiplies by splitting a factor close to a power of ten and distributing. The small product that
is left is worked out by `multiply`. -/
def roundAndAdjust? (multiply : Number → Number → Work Expr) (a b : Number) :
    Work (Option Number) := do
  let limit := Number.int (← Work.options).implicitMultiplicationLimit
  match NearPower.find? limit a b with
  | none => return none
  | some near =>
    let other := Expr.num near.other
    let split := near.ordered (.sum [.num near.power, .num (-near.distance)]) other
    Work.change (productOfNumbers a b) split
    if near.other.scale.1.abs.le limit then
      Work.change split (.num (a * b))
      return some (a * b)
    let rounded := near.power * near.other
    let adjustment := near.ordered (.num near.distance) other
    Work.change split (.sum [.num rounded, adjustment.neg])
    let adjusted ← if near.first then multiply near.distance near.other
      else multiply near.other near.distance
    if let .num n := adjusted then
      Work.change (.sum [.num rounded, .num (-n)]) (.num (rounded - n))
    return some (a * b)

/-- The name of a factor in messages. -/
structure FactorName where
  letter : String
  approximateKey : String
  shiftKey : String

/-- The first factor. -/
def FactorName.left : FactorName := ⟨"a", "multiply_approximate_a", "multiply_decimal_shift_a"⟩

/-- The second factor. -/
def FactorName.right : FactorName := ⟨"b", "multiply_approximate_b", "multiply_decimal_shift_b"⟩

/-- Rounds a factor with too many decimal digits. The rounding is written down if `record` holds. -/
def approximateFactor (name : FactorName) (record : Bool) (x : Number) : Work Number := do
  let options ← Work.options
  let (coefficient, exponent) := x.scale
  if !options.allowApproximation || decide (0 ≤ exponent)
      || decide (coefficient.abs.complexity ≤ options.maxPrecision) then
    return x
  match coefficient.toWord? with
  | none => return x
  | some n =>
    let rounded := Number.int (roundSignificant n options.maxPrecision) / powerOfTen (-exponent)
    if record then
      let message ← Work.wording name.approximateKey
        ("Approximate $" ++ x.text ++ "$ as $" ++ rounded.text ++
          "$ to control intermediate precision during multiplication.")
        ("Approximate $" ++ x.text ++ "$ as $" ++ rounded.text ++ "$ for multiplication.")
        [(name.letter, x.text), ("approximate", rounded.text)]
      Work.estimate (.num x) (.num rounded) message
    return rounded

/-- The remark on scaling a factor to an integer. -/
def remarkOnShift (name : FactorName) (x : Number) (exponent : Int) : Work Unit := do
  let power := "$10^" ++ braced (toString exponent) ++ "$"
  Work.remark (← Work.wording name.shiftKey
    ("Rewrite $" ++ x.text ++ "$ as an integer-scaled value times " ++ power ++ ".")
    ("Rewrite $" ++ x.text ++ "$ using " ++ power ++ " scaling.")
    [(name.letter, x.text), ("exponent", toString exponent)])

/-- The products of components, diagonal by diagonal of their table. -/
def partialProducts (as bs : List Number) : List Number :=
  (List.range (as.length + bs.length - 1)).flatMap fun diagonal =>
    (List.range (diagonal + 1)).reverse.filterMap fun x => do
      return (← as[x]?) * (← bs[diagonal - x]?)

/-- The table of the products of components. -/
def productTable (as bs : List Number) : String :=
  Text.Table.markdown (("" :: as.map Number.scaledText) ::
    bs.map fun b => b.scaledText :: as.map fun a => (a * b).scaledText)

/-- Works out the product of two integers from the products of their components. -/
def multiplyComponents (a b : Int64) (ca cb : Number) : Work Number := do
  let options ← Work.options
  let exact := Number.ofInt (a.toInt * b.toInt)
  let as := (Number.int a).components
  let bs := (Number.int b).components
  let products := partialProducts as bs
  let factored := Expr.prod [sumOfNumbers as, sumOfNumbers bs]
  Work.change (productOfNumbers ca cb) factored
  if options.showMultiplicationTable then
    Work.remark (← Work.wording "multiply_table_header" "\n**Partial-product table:**"
      "\n**Partial products:**" [])
    Work.remark (productTable as bs)
  Work.change factored (sumOfNumbers products)
  if options.slowStepAddition then
    if options.showValueList then
      Work.remark (← Work.wording "multiply_values_list_header"
        "**Add these partial values by place value:**" "**Values to add:**" [])
    let result ← addComponents products
    if !(result == exact) then
      Work.changeIfPresent { part := .num result, result := .num exact }
  else
    Work.change (sumOfNumbers products) (.num exact)
  return exact

/-- Scales a product of integers back. A result that overflows is kept as a product. -/
def scaleBack (exact : Number) (exponent : Int) : Work Expr := do
  let scaled := Expr.prod [.num exact, .pow 10 (.int (Int64.ofInt exponent))]
  let value := if 0 ≤ exponent then exact * powerOfTen exponent else exact / powerOfTen (-exponent)
  if value.isFinite then
    Work.change scaled (.num value)
    return .num value
  else
    return scaled

/-- Works out a product at length. -/
def multiplyAtLength (a b : Number) : Work Expr := do
  let options ← Work.options
  if options.showComplexity then
    let product := "$" ++ a.text ++ " \\cdot " ++ b.text ++ "$"
    Work.remark (← Work.wording "multiply_complex_intro"
      ("Compute " ++ product ++
        " by place-value decomposition: form partial products, then add them.")
      ("Use place-value decomposition for " ++ product ++ " and add the partial products.")
      [("a", a.text), ("b", b.text)])
  let a ← approximateFactor .left true a
  let b ← approximateFactor .right (!(b == a)) b
  let (ca, ea) := a.scale
  let (cb, eb) := b.scale
  match ca.toWord?, cb.toWord? with
  | some na, some nb =>
    if ea ≠ 0 ∧ options.showDecimalShift then
      remarkOnShift .left a ea
    if eb ≠ 0 ∧ options.showDecimalShift ∧ !(ca == cb && ea == eb) then
      remarkOnShift .right b eb
    let exponent := ea + eb
    let shifted := !(a == ca) || !(b == cb)
    if shifted then
      Work.change (productOfNumbers a b)
        (.prod [.num ca, .num cb, .pow 10 (.int (Int64.ofInt exponent))])
    let exact ← multiplyComponents na nb ca cb
    let result ← if shifted then scaleBack exact exponent else pure (.num exact)
    Work.pause
    return result
  | _, _ =>
    Work.change (productOfNumbers a b) (.num (a * b))
    return .num (a * b)

/-- Multiplies two numbers and puts the result in the place of their product in the tree. What is neither estimated nor simple
goes to `shortcut?`, and is worked out at length if that has no answer. The result is a number unless
it was estimated or cannot be scaled back. -/
def multiplyWith (shortcut? : Number → Number → Work (Option Number)) (a b : Number) :
    Work Expr := do
  let options ← Work.options
  let expression := productOfNumbers a b
  let quick := a * b
  let limit := options.implicitMultiplicationLimit
  if !a.isFinite || !b.isFinite then
    Work.change expression (.num quick)
    return .num quick
  if let some estimate ← estimateProduct? a b then
    return estimate
  if options.leavesToCalculator .multiplication a b (some quick) then
    let message ← calculatorMessage .multiplication expression (.num quick) [a, b]
    Work.explain expression (.num quick) message
    return .num quick
  let compact := options.compactMultiplication && a.isInteger && b.isInteger &&
    (a.abs.le (.int limit) || b.abs.le (.int limit))
  if compact || areSimple a.scale.1 b.scale.1 limit then
    Work.change expression (.num quick)
    return .num quick
  match ← shortcut? a b with
  | some result => return .num result
  | none => multiplyAtLength a b

/-- Multiplies two numbers without splitting one close to a power of ten. -/
def multiplyPlainly (a b : Number) : Work Expr :=
  multiplyWith (fun _ _ => pure none) a b

/-- Multiplies two numbers. A factor close to a power of ten is split if `quick` and the options allow
it. -/
def multiply (quick : Bool) (a b : Number) : Work Expr := do
  if quick && (← Work.options).roundAndAdjust then
    multiplyWith (roundAndAdjust? multiplyPlainly) a b
  else
    multiplyPlainly a b

end Workings

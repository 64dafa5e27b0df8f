import Workings.Calculus.Integral
import Workings.Simplify.Siblings

/-!
# Derivatives and integrals

The body of a derivative or an integral is simplified on the side, because its variables are bound
there: a value given for `x` must not get into `d/dx f(x)`. Of that work only the outcome is kept. Then
the rules of calculus are applied, the result takes the place of the whole node, and is simplified.
-/

namespace Workings

namespace Simplify

/-- Simplifies a body on the side with some variables unbound. -/
def body (simplify : Simplifier) (bound : List String) (e : Expr) : Work Expr := do
  let bindings := (← get).bindings.without bound
  let e := bindings.replaceSymbols e
  let (simplified, side) ← Work.onTheSide e bindings (simplify e)
  modify (·.absorb side)
  return simplified

/-- Differentiates a number of times by one variable. -/
def differentiateTimes (x : String) : Nat → Expr → Work Expr
  | 0, e => return e
  | times + 1, e => do differentiateTimes x times (← Work.differentiate x e)

/-- Differentiates by all variables in order. -/
def differentiateBy : List (String × Nat) → Expr → Work Expr
  | [], e => return e
  | (x, order) :: rest, e => do differentiateBy rest (← differentiateTimes x order e)

/-- The variables of a derivative in a message. -/
def variableNames (vars : List (String × Nat)) : String :=
  ", ".intercalate (vars.map fun (name, order) =>
    "$" ++ name ++ "$" ++ (if order = 1 then "" else " (order " ++ toString order ++ ")"))

/-- The event of a whole derivative or integral. -/
def eventWith (id : String) (category : EventCategory) (input output : Expr) (message : String) :
    Event :=
  { Rule.event id category input output with message := some message }

/-- Simplifies a derivative. -/
def derivative (simplify : Simplifier) (e : Expr) (vars : List (String × Nat)) : Work Expr := do
  let inTree := Expr.deriv e vars
  let inner ← body simplify (vars.map (·.1)) e
  let unevaluated := Expr.deriv inner vars
  let result ← differentiateBy vars inner
  if result == unevaluated then
    Work.report .partly "derivative_unsolved_rule"
    become inTree unevaluated
    return unevaluated
  modify (·.record (eventWith "derivative_simplified" .derivative inTree result
    "Applied native differentiation rules."))
  let names := variableNames vars
  let message ← Work.wording "derivative_result"
    ("Differentiate with respect to " ++ names ++ " using the applicable differentiation rules.")
    "Applied differentiation rules."
    [("variables", names)]
  Work.explain inTree result message
  simplify result

/-- Simplifies the bounds of an integral. -/
def integralBounds (simplify : Simplifier) (lower upper : Option Expr) :
    Work (Option Expr × Option Expr) := do
  let simplified ← siblings simplify (lower.toList ++ upper.toList)
  return (lower.bind fun _ => simplified[0]?, upper.bind fun _ => simplified[lower.toList.length]?)

/-- What becomes of an integral without an antiderivative. -/
def unsolvedIntegral (reason : String) (inTree current : Expr) : Work Expr := do
  Work.report .partly reason
  become inTree current
  return current

/-- Puts an antiderivative in the place of an indefinite integral. -/
def indefiniteIntegral (simplify : Simplifier) (var : String) (inTree antiderivative : Expr) :
    Work Expr := do
  modify (·.record (eventWith "integral_antiderivative_found" .integral inTree antiderivative
    "Found antiderivative using native integration rules."))
  let message ← Work.wording "integral_indefinite_result"
    ("Compute an antiderivative with respect to $" ++ var ++ "$.")
    "Applied integration rules."
    [("variable", var)]
  Work.explain inTree antiderivative message
  simplify antiderivative

/-- Puts the difference of an antiderivative at the bounds in the place of a definite integral. -/
def definiteIntegral (simplify : Simplifier) (var : String) (lower upper inTree antiderivative : Expr) :
    Work Expr := do
  let difference := Expr.buildSum [
    antiderivative.substitute var upper,
    Expr.buildProd [Expr.minusOne, antiderivative.substitute var lower]]
  modify (·.record (eventWith "integral_definite_evaluated" .integral inTree difference
    "Applied Fundamental Theorem of Calculus with bounds."))
  let upper ← Work.written upper
  let lower ← Work.written lower
  let message ← Work.wording "integral_definite_result"
    ("Apply the Fundamental Theorem of Calculus: evaluate the antiderivative at the bounds and " ++
      "subtract, $F(" ++ upper ++ ") - F(" ++ lower ++ ")$.")
    "Evaluate antiderivative at bounds and subtract."
    [("upper", upper), ("lower", lower)]
  Work.explain inTree difference message
  simplify difference

/-- Simplifies an integral. -/
def integral (simplify : Simplifier) (e : Expr) (var : String) (lower upper : Option Expr) :
    Work Expr := do
  let inner ← body simplify [var] e
  let (lower, upper) ← integralBounds simplify lower upper
  let inTree := Expr.integral e var lower upper
  let current := Expr.integral inner var lower upper
  let antiderivative ← Work.integrate var inner
  let solved := antiderivative.shape != .integral
  match Expr.bounds? lower upper with
  | none =>
    if solved then indefiniteIntegral simplify var inTree antiderivative
    else unsolvedIntegral "integral_unsolved_rule" inTree current
  | some (lower, upper) =>
    if solved then definiteIntegral simplify var lower upper inTree antiderivative
    else unsolvedIntegral "definite_integral_unsolved_antiderivative" inTree current

end Simplify

end Workings

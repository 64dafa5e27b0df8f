import Workings.Calculus.Rule
import Workings.Expr.Symbols

/-!
# Differentiation

`Expr.differentiate` takes the derivative of an expression once: `0` if the expression does not vary
with the variable, and one step of the rule for its shape otherwise. A derivative for which there is no
rule is left as a derivative.
-/

namespace Workings

namespace Expr

/-- Whether an expression varies with a variable. An indefinite integral over the variable does,
although the variable is bound in it. -/
def varies (x : String) (e : Expr) : Bool :=
  match e with
  | .integral _ var lower upper =>
    ((bounds? lower upper).isNone && var == x) || e.mentions x
  | _ => e.mentions x

/-- One more derivative: a derivative gets one more variable, or a higher order of its last one. The order
is a natural number, so that raising it does not overflow at `2 ^ 32`. -/
def composeDerivative (x : String) : Expr → Expr
  | .deriv body vars =>
    match vars.getLast? with
    | some (last, order) =>
      if last == x then .deriv body (vars.dropLast ++ [(last, order + 1)])
      else .deriv body (vars ++ [(x, 1)])
    | none => .deriv body [(x, 1)]
  | e => e.derivOnce x

/-- The terms of the product rule, one for every factor whose derivative is not zero. `before` are the
factors already passed. -/
def productTerms (before : List Expr) : List Expr → List Expr → List Expr
  | factor :: factors, derivative :: derivatives =>
    let rest := productTerms (before ++ [factor]) factors derivatives
    if derivative.isValue 0 then rest else buildProd (before ++ derivative :: factors) :: rest
  | _, _ => []

/-- The derivative of a power from the derivatives of its base and exponent. -/
def powerRule (base exponent dBase dExponent : Expr) : Expr :=
  match exponent with
  | .num n => buildProd [exponent, buildPow base (.num (n - 1)), dBase]
  | _ =>
    if dExponent.isValue 0 then
      buildProd [exponent, buildPow base (buildSum [exponent, minusOne]), dBase]
    else
      buildProd [
        buildPow base exponent,
        buildSum [
          buildProd [dExponent, call1 "ln" base],
          buildProd [exponent, dBase, buildPow base minusOne]]]

/-- The derivative of a function of one argument `u` with derivative `du`. -/
def outerDerivative? (name : String) (u du : Expr) : Option Expr :=
  match name with
  | "sin" => some (buildProd [call1 "cos" u, du])
  | "cos" => some (buildProd [minusOne, call1 "sin" u, du])
  | "tan" => some (buildProd [buildPow (call1 "sec" u) 2, du])
  | "exp" => some (buildProd [call1 "exp" u, du])
  | "ln" => some (buildProd [du, buildPow u minusOne])
  | "sqrt" => some (buildProd [du, buildPow 2 minusOne, buildPow (call1 "sqrt" u) minusOne])
  | _ => none

/-- The derivative of a logarithm to a base that does not mention the variable. -/
def logDerivative? (x name : String) (subscript : List Expr) (u du : Expr) : Option Expr :=
  match name, subscript with
  | "log", [base] =>
    if base.mentions x then none
    else some (buildProd [du, buildPow u minusOne, buildPow (call1 "ln" base) minusOne])
  | _, _ => none

/-- The chain rule for a call, given the derivatives of its arguments. Calls without exactly one
argument and unknown functions stay unevaluated. -/
def chainRule (x : String) (f : Signature) (functional subscript superscript derivatives : List Expr) :
    Expr :=
  let unevaluated := derivOnce (.call f functional subscript superscript) x
  match functional, derivatives with
  | [u], [du] =>
    if du.isValue 0 then 0
    else ((outerDerivative? f.name u du).or (logDerivative? x f.name subscript u du)).getD unevaluated
  | _, _ => unevaluated

/-- The parts of an expression whose derivatives its rule needs. -/
def ruleParts : Expr → List Expr
  | .sum terms => terms
  | .prod factors => factors
  | .pow base exponent => [base, exponent]
  | .call _ functional _ _ => functional
  | _ => []

/-- One step of the rule for the shape of an expression, given the derivatives of its parts. -/
def stepDerivative (x : String) (e : Expr) (derivatives : List Expr) : Expr :=
  match e with
  | .num _ => 0
  | .sym name => if name == x then 1 else 0
  | .sum _ => buildSum derivatives
  | .prod factors => buildSum (productTerms [] factors derivatives)
  | .pow base exponent =>
    powerRule base exponent (derivatives.getD 0 0) (derivatives.getD 1 0)
  | .call f functional subscript superscript =>
    chainRule x f functional subscript superscript derivatives
  | .deriv _ _ => composeDerivative x e
  | .integral body var none none => if var == x then body else e.derivOnce x
  | .integral _ _ _ _ => e.derivOnce x

/-- `0` for an expression that does not vary, and one step of its rule otherwise. -/
def derivativeFrom (x : String) (e : Expr) (derivatives : List Expr) : Expr :=
  if e.varies x then stepDerivative x e derivatives else 0

mutual

/-- The derivative with respect to a variable. -/
def differentiate (x : String) : Expr → Expr
  | .num n => derivativeFrom x (.num n) []
  | .sym name => derivativeFrom x (.sym name) []
  | .sum terms => derivativeFrom x (.sum terms) (differentiateAll x terms)
  | .prod factors => derivativeFrom x (.prod factors) (differentiateAll x factors)
  | .pow base exponent =>
    derivativeFrom x (.pow base exponent) [differentiate x base, differentiate x exponent]
  | .call f functional subscript superscript =>
    derivativeFrom x (.call f functional subscript superscript) (differentiateAll x functional)
  | .deriv body vars => derivativeFrom x (.deriv body vars) []
  | .integral body var lower upper => derivativeFrom x (.integral body var lower upper) []

/-- The derivatives of expressions. -/
def differentiateAll (x : String) : List Expr → List Expr
  | [] => []
  | e :: es => differentiate x e :: differentiateAll x es

end

/-- One step of the rule for the shape of an expression. -/
def applyDerivativeRule (x : String) (e : Expr) : Expr :=
  stepDerivative x e (differentiateAll x e.ruleParts)

/-- The derivative is one step of the rule for the shape of an expression that varies. -/
theorem differentiate_eq (x : String) (e : Expr) :
    differentiate x e = if e.varies x then applyDerivativeRule x e else 0 := by
  cases e <;>
    simp [differentiate, derivativeFrom, applyDerivativeRule, ruleParts, differentiateAll]

/-- The derivatives of a list, one by one. -/
theorem differentiateAll_eq_map (x : String) (es : List Expr) :
    differentiateAll x es = es.map (differentiate x) := by
  induction es with
  | nil => rfl
  | cons e es ih => rw [differentiateAll, ih, List.map_cons]

end Expr

namespace Rule

/-- A rule of differentiation for one shape. Expressions of any other shape stay unevaluated. -/
def derivative (id : String) (shape : Expr.Shape) : Rule where
  id := id
  category := .derivative
  applies e := e.shape == shape
  apply x e := if e.shape == shape then e.applyDerivativeRule x else e.derivOnce x

/-- The rules of differentiation, in the order in which they are tried. -/
def derivatives : List Rule := [
  { derivative "diff_numeric" .num with apply _ _ := 0 },
  { derivative "diff_symbol" .sym with
    apply x e := if e.shape == .sym then e.applyDerivativeRule x else 0 },
  derivative "diff_sum" .sum,
  derivative "diff_product" .prod,
  derivative "diff_power" .pow,
  derivative "diff_function_chain" .call,
  { derivative "diff_nested_derivative" .deriv with apply := Expr.composeDerivative },
  derivative "diff_integral" .integral]

end Rule

namespace Work

/-- Differentiates an expression once and records the rule that was used. -/
def differentiate (x : String) (e : Expr) : Work Expr := do
  if !e.varies x then
    modify (·.record (Rule.event "diff_constant_by_absence" .derivative e 0))
    return 0
  match Rule.find? Rule.derivatives e with
  | some rule =>
    let result := rule.apply x e
    modify (·.record (Rule.event rule.id rule.category e result))
    return result
  | none =>
    let result := e.derivOnce x
    report .partly "derivative_unsolved_rule"
    modify (·.record { Rule.event "diff_fallback_symbolic" .derivative e result with
      flags := ["unsolved_symbolic"] })
    return result

end Work

end Workings

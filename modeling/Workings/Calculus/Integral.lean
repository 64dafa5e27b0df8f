import Workings.Calculus.Derivative

/-!
# Integration

`Expr.integrate` finds an antiderivative, without a constant of integration. What no rule covers is left
as an indefinite integral, also inside of sums and next to constant factors.
-/

namespace Workings

namespace Expr

/-- The antiderivative of a constant. -/
def constantRule (x : String) (e : Expr) : Expr :=
  buildProd [e, .sym x]

/-- The antiderivative of a symbol. -/
def symbolRule (x : String) (e : Expr) : Expr :=
  match e with
  | .sym name =>
    if name == x then buildProd [buildPow (.sym x) 2, buildPow 2 minusOne] else constantRule x e
  | _ => constantRule x e

/-- The antiderivative of a product: factors that do not mention the variable stay in front. That helps
only if no more than one factor mentions it. -/
def constantFactorRule (x : String) (factors integrals : List Expr) : Expr :=
  match (factors.zip integrals).filter fun pair => pair.1.mentions x with
  | [] => constantRule x (.prod factors)
  | [(_, solved)] => buildProd (factors.filter (!·.mentions x) ++ [solved])
  | _ => (Expr.prod factors).indefinite x

/-- The antiderivative of a power of the variable. -/
def powerIntegral (x : String) (base exponent : Expr) : Expr :=
  let unsolved := (Expr.pow base exponent).indefinite x
  match base, exponent with
  | .sym name, .num n =>
    if name != x then unsolved
    else if n == (-1 : Number) then call1 "ln" (.sym x)
    else buildProd [buildPow (.sym x) (.num (n + 1)), buildPow (.num (n + 1)) minusOne]
  | _, _ => unsolved

/-- The antiderivative of a function of an argument whose derivative is a number, given the inverse of
that number. -/
def outerIntegral? (x name : String) (u inverse : Expr) : Option Expr :=
  match name with
  | "sin" => some (buildProd [minusOne, call1 "cos" u, inverse])
  | "cos" => some (buildProd [call1 "sin" u, inverse])
  | "exp" => some (buildProd [call1 "exp" u, inverse])
  | "ln" =>
    match u with
    | .sym s =>
      if s == x then
        some (buildSum [buildProd [u, call1 "ln" u], buildProd [minusOne, u]])
      else
        none
    | _ => none
  | _ => none

/-- The antiderivative of a call with one argument, linear in the variable. -/
def linearArgumentRule (x : String) (f : Signature) (functional subscript superscript : List Expr) :
    Expr :=
  let unsolved := (Expr.call f functional subscript superscript).indefinite x
  match functional with
  | [u] =>
    let du := u.differentiate x
    if !du.isNumber || du.isValue 0 then unsolved
    else (outerIntegral? x f.name u (buildPow du minusOne)).getD unsolved
  | _ => unsolved

/-- One step of the rule for the shape of an expression, given the antiderivatives of the parts of a
sum or a product. -/
def stepIntegral (x : String) (e : Expr) (integrals : List Expr) : Expr :=
  match e with
  | .num _ => constantRule x e
  | .sym _ => symbolRule x e
  | .sum _ => buildSum integrals
  | .prod factors => constantFactorRule x factors integrals
  | .pow base exponent => powerIntegral x base exponent
  | .call f functional subscript superscript =>
    linearArgumentRule x f functional subscript superscript
  | .deriv body vars => if vars == [(x, 1)] then body else e.indefinite x
  | .integral _ _ _ _ => e.indefinite x

mutual

/-- An antiderivative with respect to a variable. -/
def integrate (x : String) : Expr → Expr
  | .sum terms => stepIntegral x (.sum terms) (integrateAll x terms)
  | .prod factors => stepIntegral x (.prod factors) (integrateAll x factors)
  | .num n => stepIntegral x (.num n) []
  | .sym name => stepIntegral x (.sym name) []
  | .pow base exponent => stepIntegral x (.pow base exponent) []
  | .call f functional subscript superscript =>
    stepIntegral x (.call f functional subscript superscript) []
  | .deriv body vars => stepIntegral x (.deriv body vars) []
  | .integral body var lower upper => stepIntegral x (.integral body var lower upper) []

/-- Antiderivatives of expressions. -/
def integrateAll (x : String) : List Expr → List Expr
  | [] => []
  | e :: es => integrate x e :: integrateAll x es

end

/-- Antiderivatives of a list, one by one. -/
theorem integrateAll_eq_map (x : String) (es : List Expr) :
    integrateAll x es = es.map (integrate x) := by
  induction es with
  | nil => rfl
  | cons e es ih => rw [integrateAll, ih, List.map_cons]

end Expr

namespace Rule

/-- A rule of integration for one shape. Expressions of any other shape stay unsolved. -/
def integral (id : String) (shape : Expr.Shape) : Rule where
  id := id
  category := .integral
  applies e := e.shape == shape
  apply x e := if e.shape == shape then e.integrate x else e.indefinite x

/-- The rules of integration, in the order in which they are tried. -/
def integrals : List Rule := [
  { integral "int_constant" .num with apply := Expr.constantRule },
  { integral "int_symbol" .sym with apply := Expr.symbolRule },
  integral "int_sum" .sum,
  integral "int_product_constant_factor" .prod,
  integral "int_power_rule" .pow,
  integral "int_function_u_sub" .call,
  integral "int_derivative_inverse" .deriv,
  integral "int_nested_integral" .integral]

end Rule

namespace Work

/-- Integrates an expression once and records the rule that was used. -/
def integrate (x : String) (e : Expr) : Work Expr := do
  match Rule.find? Rule.integrals e with
  | some rule =>
    let result := rule.apply x e
    modify (·.record (Rule.event rule.id rule.category e result))
    return result
  | none =>
    let result := e.indefinite x
    report .partly "integral_unsolved_rule"
    modify (·.record { Rule.event "int_fallback_symbolic" .integral e result with
      flags := ["unsolved_symbolic"] })
    return result

end Work

end Workings

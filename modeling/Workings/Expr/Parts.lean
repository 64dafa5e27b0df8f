import Workings.Expr.Build

/-!
# Ways of taking an expression apart

`Expr.coefficient` and `Expr.variablePart?` split a term into a number and the rest, and
`Expr.fraction?` splits an expression with negative exponents into a numerator and a denominator.
-/

namespace Workings

namespace Expr

/-- The product of the numbers among the factors. -/
def numericFactor (factors : List Expr) : Number :=
  (factors.filterMap number?).foldl (· * ·) 1

/-- The numeric coefficient of a term. -/
def coefficient : Expr → Number
  | .num n => n
  | .prod factors => numericFactor factors
  | _ => 1

/-- The part of a term that is not its coefficient, if there is one. -/
def variablePart? : Expr → Option Expr
  | .num _ => none
  | .prod factors =>
    match factors.filter (!·.isNumber) with
    | [] => none
    | vars => some (unwrap .prod vars)
  | e => some e

/-- The base and the exponent of a power whose exponent is a negative number. -/
def reciprocal? : Expr → Option (Expr × Number)
  | .pow base (.num n) => if n.isNegative then some (base, n) else none
  | _ => none

/-- The numerator and the denominator of an expression some of whose factors are powers with a
negative numeric exponent. -/
def fraction? : Expr → Option (Expr × Expr)
  | .pow base exponent =>
    (reciprocal? (.pow base exponent)).map fun (base, n) => (1, .pow base (.num (-n)))
  | .prod factors =>
    match factors.filterMap reciprocal? with
    | [] => none
    | denominator =>
      let numerator := factors.filter (·.reciprocal?.isNone)
      some (if numerator.isEmpty then 1 else unwrap .prod numerator,
        unwrap .prod (denominator.map fun (base, n) => .pow base (.num (-n))))
  | _ => none

end Expr

end Workings

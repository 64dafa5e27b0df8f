import Workings.Expr.Basic

/-!
# Normalizing constructors and negation

`buildSum`, `buildProd` and `buildPow` build a node in which the trivial parts are already gone: one
level of nesting is flattened, zeros leave a sum, ones leave a product, a zero factor takes the whole
product, and a node that would be left with one part is that part.

`Expr.neg` is the sign change by which occurrences are recognized: it flips a leading number or a factor `-1`
where there is one, and puts a `-1` in front otherwise.
-/

namespace Workings

namespace Expr

/-- The terms of a sum with nested sums flattened by one level and zeros left out. -/
def flatTerms : List Expr → List Expr
  | [] => []
  | .sum inner :: rest => inner ++ flatTerms rest
  | term :: rest => if term.isValue 0 then flatTerms rest else term :: flatTerms rest

/-- A sum node, except that no terms are `0` and one term stands alone. -/
def sumOf : List Expr → Expr
  | [] => 0
  | [term] => term
  | terms => .sum terms

/-- The normalized sum of the given terms. -/
def buildSum (terms : List Expr) : Expr :=
  sumOf (flatTerms terms)

/-- The factors of a product with nested products flattened by one level and ones left out. -/
def flatFactors : List Expr → List Expr
  | [] => []
  | .prod inner :: rest => inner ++ flatFactors rest
  | factor :: rest => if factor.isValue 1 then flatFactors rest else factor :: flatFactors rest

/-- A product node, except that no factors are `1` and one factor stands alone. -/
def prodOf : List Expr → Expr
  | [] => 1
  | [factor] => factor
  | factors => .prod factors

/-- The normalized product of the given factors. -/
def buildProd (factors : List Expr) : Expr :=
  let flat := flatFactors factors
  if flat.any (·.isValue 0) then 0 else prodOf flat

/-- The normalized power: `x ^ 1` is `x`, and `x ^ 0` and `1 ^ x` are `1`. -/
def buildPow (base exponent : Expr) : Expr :=
  if exponent.isValue 1 then base
  else if exponent.isValue 0 || base.isValue 1 then 1
  else .pow base exponent

/-- A node with one part stands for that part, any other list of parts becomes a node. -/
def unwrap (node : List Expr → Expr) : List Expr → Expr
  | [only] => only
  | parts => node parts

/-- The expression with the opposite sign. -/
def neg : Expr → Expr
  | .num n => .num (-n)
  | .prod factors =>
    if factors.any (·.isValue (-1)) then
      unwrap .prod (factors.eraseP (·.isValue (-1)))
    else
      match factors with
      | .num n :: rest => .prod (.num (-n) :: rest)
      | _ => .prod (minusOne :: factors)
  | e => .prod [minusOne, e]

end Expr

end Workings

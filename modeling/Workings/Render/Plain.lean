import Workings.Render.Shape

/-!
# Expressions as plain text

The form used in error messages and for quick reading: `x^2 - 3x + 1`, `1/x`, `sqrt(x)`, `f(x)`,
`d/dx(x^2)`, `int(x) dx`.
-/

namespace Workings

namespace Render

/-- A number in plain text. -/
def plainNumber (n : Number) : String :=
  number "π" n

/-- The arguments of a subscript or superscript. Several of them are in braces. -/
def plainScript (write : Bool → Expr → Option String) (mark : String) : List Expr → Option String
  | [] => some ""
  | [argument] => (write true argument).map (mark ++ ·)
  | arguments => (arguments.mapM (write false)).map fun texts =>
    mark ++ braced (", ".intercalate texts)

/-- The variables of a derivative. -/
def plainVariables (vars : List (String × Nat)) : String :=
  ",".intercalate (vars.map fun (name, order) =>
    if order = 1 then name else name ++ "^" ++ toString order)

/-- A factor of a product. Numbers never get parentheses here. -/
def plainFactor (write : Bool → Expr → Option String) : Expr → Option String
  | .num n => some (plainNumber n)
  | e => write true e

/-- Writes an expression with the forms of its parts given by `write`. If `group` holds, a form that
could be misread next to an operator gets parentheses. -/
def plainNode (write : Bool → Expr → Option String) (group : Bool) : Expr → Option String
  | .num n => some (grouped (group && n.isNegative) (plainNumber n))
  | .sym name => some name
  | .pow base exponent =>
    match negativeExponent? exponent with
    | some magnitude => do
      let below ← write true (Expr.buildPow base (.num magnitude))
      return grouped group ("1/" ++ below)
    | none =>
      match root? (.pow base exponent) with
      | some (value, degree) => do
        let inside ← write false value
        return if degree == (2 : Number) then "sqrt(" ++ inside ++ ")"
          else "root(" ++ inside ++ ", " ++ plainNumber degree ++ ")"
      | none => do
        return grouped group ((← write true base) ++ "^" ++ (← write true exponent))
  | .prod factors =>
    if (denominator factors).isEmpty then do
      let text ← product (plainFactor write) ("*" ++ ·) factors
      return grouped (group && decide (1 < factors.length)) text
    else do
      let above ← write true (Expr.buildProd (numerator factors))
      let below ← write true (Expr.buildProd (denominator factors))
      return grouped group (above ++ "/" ++ below)
  | .sum terms => do
    let (text, count) ← signedSum (write false) terms
    return grouped (group && decide (1 < count)) text
  | .call f functional subscript superscript => do
    let lowered ← plainScript write "_" subscript
    let raised ← plainScript write "^" superscript
    let arguments ← functional.mapM (write false)
    return f.name ++ lowered ++ raised ++ "(" ++ ", ".intercalate arguments ++ ")"
  | .deriv body vars => do
    return "d/d" ++ plainVariables vars ++ "(" ++ (← write false body) ++ ")"
  | .integral body var lower upper => do
    let integrand ← write false body
    let sign ← match Expr.bounds? lower upper with
      | some (a, b) =>
        let start ← write false a
        let stop ← write false b
        pure ("int_[" ++ start ++ ".." ++ stop ++ "]")
      | none => pure "int"
    return sign ++ "(" ++ integrand ++ ") d" ++ var

/-- Writes an expression down to the given depth. There is no form if the depth does not suffice. -/
def plainAt : Nat → Bool → Expr → Option String
  | 0, _, _ => none
  | depth + 1, group, e => plainNode (plainAt depth) group e

end Render

/-- The plain form of an expression. -/
def Expr.plain (e : Expr) : String :=
  (Render.plainAt e.weight false e).getD ""

end Workings

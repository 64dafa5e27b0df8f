import Workings.Render.Shape

/-!
# Expressions in LaTeX

Factors with negative exponents are collected under one fraction bar, roots get a root sign, and
factors stand next to each other with parentheses where they would be misread, as in `91(998)`. A
function call is `\name_{sub}^{sup}{args}`.
-/

namespace Workings

namespace Render

/-- A number in LaTeX. -/
def latexNumber (n : Number) : String :=
  number "\\pi" n

/-- A fraction. -/
def frac (above below : String) : String :=
  "\\frac" ++ braced above ++ braced below

/-- A raised or lowered text, in braces unless it is a single character. -/
def script (mark text : String) : String :=
  mark ++ (if text.length == 1 then text else braced text)

/-- The arguments of a subscript or superscript, written `mark` first. Several of them are always in
braces. -/
def scriptList (mark : String) : List String → String
  | [] => ""
  | [text] => script mark text
  | texts => mark ++ braced (", ".intercalate texts)

/-- The variables of a derivative under the fraction bar. -/
def differentials (vars : List (String × Nat)) : String :=
  " ".intercalate (vars.map fun (name, order) =>
    "d" ++ name ++ (if order = 1 then "" else "^" ++ braced (toString order)))

/-- The operator of a derivative. -/
def derivOperator (vars : List (String × Nat)) : String :=
  let total := vars.foldl (fun total (_, order) => total + order) 0
  frac (if total = 1 then "d" else "d^" ++ braced (toString total)) (differentials vars)

/-- The base of a power. Negative numbers, products and powers other than roots get parentheses. -/
def latexBase (write : Bool → Expr → Option String) (e : Expr) : Option String :=
  match e with
  | .num n => some (grouped n.isNegative (latexNumber n))
  | .prod factors =>
    if 1 < factors.length then (write false e).map (grouped true) else write true e
  | .pow _ _ => if (root? e).isNone then (write false e).map (grouped true) else write true e
  | _ => write true e

/-- Writes an expression with the forms of its parts given by `write`. If `group` holds, a form that
could be misread as a factor gets parentheses. -/
def latexNode (write : Bool → Expr → Option String) (group : Bool) : Expr → Option String
  | .num n => some (latexNumber n)
  | .sym name => some name
  | .pow base exponent =>
    match negativeExponent? exponent with
    | some magnitude => do
      let below ← write false (Expr.buildPow base (.num magnitude))
      return grouped group (frac "1" below)
    | none =>
      match root? (.pow base exponent) with
      | some (value, degree) => do
        let inside ← write false value
        let sign := if degree == (2 : Number) then "" else "[" ++ latexNumber degree ++ "]"
        return "\\sqrt" ++ sign ++ braced inside
      | none => do
        let raised ← write false exponent
        return (← latexBase write base) ++ script "^" raised
  | .prod factors =>
    if (denominator factors).isEmpty then
      product (write true) (grouped true) factors
    else do
      let above ← write false (Expr.buildProd (numerator factors))
      let below ← write false (Expr.buildProd (denominator factors))
      return grouped group (frac above below)
  | .sum terms => do
    let (text, count) ← signedSum (write false) terms
    return grouped (group && decide (1 < count)) text
  | .call f functional subscript superscript => do
    let lowered ← subscript.mapM (write false)
    let raised ← superscript.mapM (write false)
    let arguments ← functional.mapM (write false)
    return "\\" ++ f.name ++ scriptList "_" lowered ++ scriptList "^" raised ++
      braced (", ".intercalate arguments)
  | .deriv body vars => do
    return grouped group (derivOperator vars ++ (← write true body))
  | .integral body var lower upper => do
    let integrand ← write false body
    let sign ← match Expr.bounds? lower upper with
      | some (a, b) =>
        let start ← write false a
        let stop ← write false b
        pure ("\\int_" ++ braced start ++ "^" ++ braced stop)
      | none => pure "\\int"
    return grouped group (sign ++ " " ++ integrand ++ " \\, d" ++ var)

/-- Writes an expression down to the given depth. There is no form if the depth does not suffice. -/
def latexAt : Nat → Bool → Expr → Option String
  | 0, _, _ => none
  | depth + 1, group, e => latexNode (latexAt depth) group e

end Render

/-- The LaTeX form of an expression. -/
def Expr.latex (e : Expr) : String :=
  (Render.latexAt e.weight false e).getD ""

end Workings

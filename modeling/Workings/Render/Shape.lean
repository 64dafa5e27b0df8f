import Workings.Expr.Build
import Workings.Number.Text
import Workings.Text.Blank

/-!
# What both ways of writing an expression share

The LaTeX form and the plain form agree on how an expression is read before it is written: which
powers are roots, which factors belong under a fraction bar, which terms are subtracted, and where two
factors next to each other would be misread. They differ only in the marks they use.

Both forms write nodes that are not parts of the expression (the power with its exponent negated, the
product of the factors under the bar), so their recursion is on a depth. `Expr.weight` is the depth
that suffices: a negative number weighs more than a positive one, and every node written on the way
weighs less than the node it came from.
-/

namespace Workings

namespace Render

/-- Puts braces around a text. -/
def braced (text : String) : String :=
  "\x7b" ++ text ++ "\x7d"

/-- Puts parentheses around a text if `group` holds. -/
def grouped (group : Bool) (text : String) : String :=
  if group then "(" ++ text ++ ")" else text

/-- Writes a number, `pi` being the mark for the ratio of a circle. -/
def number (pi : String) (n : Number) : String :=
  if n == .float Workings.pi then pi else n.text

/-- Whether a text starts with a minus sign. -/
def startsWithMinus (text : String) : Bool :=
  text.toList.head? == some '-'

/-- Whether a text starts with a decimal digit. -/
def startsWithDigit (text : String) : Bool :=
  text.toList.head?.any Char.isDigit

/-- Whether a text ends with a decimal digit. -/
def endsWithDigit (text : String) : Bool :=
  text.toList.getLast?.any Char.isDigit

/-- The magnitude of an exponent that is a negative number. -/
def negativeExponent? : Expr → Option Number
  | .num n => if n.isNegative then some (-n) else none
  | _ => none

/-- The value and the degree of a root, an expression of the form `value ^ (n ^ -k)` with degree
`n ^ k`. There is none if the degree overflows. -/
def root? : Expr → Option (Expr × Number)
  | .pow value (.pow (.num n) inner) => do
    let magnitude ← negativeExponent? inner
    let degree ← n.pow? magnitude
    return (value, degree)
  | _ => none

/-- The factor under a fraction bar that a power with a negative exponent stands for. -/
def underBar? : Expr → Option Expr
  | .pow base exponent => (negativeExponent? exponent).map fun n => Expr.buildPow base (.num n)
  | _ => none

/-- The factors above the fraction bar. -/
def numerator (factors : List Expr) : List Expr :=
  factors.filter fun factor => (underBar? factor).isNone

/-- The factors below the fraction bar. -/
def denominator (factors : List Expr) : List Expr :=
  factors.filterMap underBar?

/-- The term without its sign, if it is a negative number or a product that starts with one. -/
def unsigned? : Expr → Option Expr
  | .num n => if n.isNegative then some (.num (-n)) else none
  | .prod (.num n :: rest) =>
    if n.isNegative then
      if -n == (1 : Number) && !rest.isEmpty then some (Expr.buildProd rest)
      else some (Expr.buildProd (.num (-n) :: rest))
    else
      none
  | _ => none

mutual

/-- The terms of a term that may itself be a sum. -/
def termsOf : Expr → List Expr
  | .sum terms => allTerms terms
  | e => [e]

/-- The terms of a sum, sums within it opened to any depth. -/
def allTerms : List Expr → List Expr
  | [] => []
  | e :: es => termsOf e ++ allTerms es

end

/-- A term as it stands in a sum: whether it is subtracted, and what is written after the sign. -/
def signedTerm (write : Expr → Option String) (term : Expr) : Option (Bool × String) := do
  let text ← write term
  if startsWithMinus text then
    return (true, Text.dropBlank (String.ofList (text.toList.drop 1)))
  match unsigned? term with
  | some magnitude => return (true, ← write magnitude)
  | none => return (false, text)

/-- Signs between the terms, and in front of the first one only if it is a minus. -/
def joinSigned : List (Bool × String) → String
  | [] => "0"
  | (negative, text) :: rest =>
    (if negative then "-" else "") ++ text ++
      String.join (rest.map fun (negative, text) => (if negative then " - " else " + ") ++ text)

/-- A sum with a sign between any two terms, and the number of its terms. -/
def signedSum (write : Expr → Option String) (terms : List Expr) : Option (String × Nat) := do
  let flat := allTerms terms
  return (joinSigned (← flat.mapM (signedTerm write)), flat.length)

/-- The factors one after the other. A factor that would be misread after what stands before it, a
sign anywhere or a digit after a digit, is written with `mark`. -/
def juxtapose (mark : String → String) : Option String → List String → String
  | _, [] => ""
  | before, text :: rest =>
    let misread := match before with
      | some before => startsWithMinus text || (startsWithDigit text && endsWithDigit before)
      | none => false
    (if misread then mark text else text) ++ juxtapose mark (some text) rest

/-- A product written without a multiplication sign. A first factor `-1` is a bare minus sign, and a
product without any text is `1`. -/
def product (write : Expr → Option String) (mark : String → String) (factors : List Expr) :
    Option String := do
  let (sign, factors) := match factors with
    | first :: second :: rest =>
      if first.isValue (-1) then (true, second :: rest) else (false, factors)
    | _ => (false, factors)
  let texts ← factors.mapM write
  let body := juxtapose mark (if sign then some "" else none) texts
  let text := if sign then "-" ++ body else body
  return if text.isEmpty then "1" else text

end Render

namespace Expr

mutual

/-- The depth to which an expression is written. -/
def weight : Expr → Nat
  | .num n => if n.isNegative then 2 else 1
  | .sym _ => 1
  | .sum terms => 1 + weightAll terms
  | .prod factors => 1 + weightAll factors
  | .pow base exponent => 1 + weight base + weight exponent
  | .call _ functional subscript superscript =>
    1 + weightAll functional + weightAll subscript + weightAll superscript
  | .deriv body _ => 1 + weight body
  | .integral body _ lower upper => 1 + weight body + weightOption lower + weightOption upper

/-- The weight of a list of expressions. -/
def weightAll : List Expr → Nat
  | [] => 0
  | e :: es => weight e + weightAll es

/-- The weight of an expression that may be missing. -/
def weightOption : Option Expr → Nat
  | none => 0
  | some e => weight e

end

end Expr

end Workings

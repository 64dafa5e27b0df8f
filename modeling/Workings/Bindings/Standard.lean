import Workings.Bindings
import Workings.Number.Text

/-!
# Standard functions

Numeric implementations of `sin`, `cos`, `tan`, `exp`, `ln`, `sqrt` and `log`. The base of `log` is its
first subscript, or ten. A function takes exactly one argument, and refuses an argument outside of its
real domain.
-/

namespace Workings.Bindings

/-- The only argument of a function. -/
def onlyArgument (name : String) : List Number → Except String Float
  | [x] => .ok x.toFloat
  | xs => .error (name ++ " takes exactly one argument, got " ++ toString xs.length)

/-- A function defined everywhere. -/
def total (name : String) (f : Float → Float) : NumericFunction := fun functional _ _ => do
  return .float (f (← onlyArgument name functional))

/-- The refusal of an argument. -/
def refuse (reason : String) (x : Float) : Except String Number :=
  .error (reason ++ (Number.float x).text)

/-- The natural logarithm. -/
def naturalLog : NumericFunction := fun functional _ _ => do
  let x ← onlyArgument "ln" functional
  if x ≤ 0.0 then
    refuse "the natural logarithm is only defined for positive numbers, got " x
  else
    return .float x.log

/-- The square root. -/
def squareRoot : NumericFunction := fun functional _ _ => do
  let x ← onlyArgument "sqrt" functional
  if x < 0.0 then
    refuse "the square root is only defined for non-negative numbers, got " x
  else
    return .float x.sqrt

/-- The logarithm to a given base. -/
def logarithm : NumericFunction := fun functional subscript _ => do
  let x ← onlyArgument "log" functional
  let base := subscript.head?.elim 10.0 Number.toFloat
  if x ≤ 0.0 then
    refuse "the logarithm is only defined for positive numbers, got " x
  else if base ≤ 0.0 || base == 1.0 then
    .error ((Number.float base).text ++ " is not a valid logarithm base")
  else
    return .float (x.log / base.log)

/-- The standard functions, bound by name. -/
def standard : Bindings :=
  ({} : Bindings)
    |>.withFunction "sin" (total "sin" Float.sin)
    |>.withFunction "cos" (total "cos" Float.cos)
    |>.withFunction "tan" (total "tan" Float.tan)
    |>.withFunction "exp" (total "exp" Float.exp)
    |>.withFunction "ln" naturalLog
    |>.withFunction "sqrt" squareRoot
    |>.withFunction "log" logarithm

end Workings.Bindings

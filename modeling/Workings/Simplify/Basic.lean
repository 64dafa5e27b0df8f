import Workings.Simplify.Calculus
import Workings.Simplify.Call
import Workings.Simplify.Literal
import Workings.Simplify.Power
import Workings.Simplify.Product
import Workings.Simplify.Sum

/-!
# Simplifying expressions

The parts of an expression are simplified before the expression itself, and every change is made on
the sheet as it happens. A distributed product, an expanded power and the result of a rule of calculus
are simplified again, so the recursion is not on the expression but on a depth.
-/

namespace Workings

namespace Simplify

/-- Simplifies a symbol. A value bound to the variable of an enclosing derivative is put in its place
once the derivative is taken. -/
def symbol (name : String) : Work Expr := do
  match (← get).bindings.value? name with
  | some value =>
    Work.changeIfPresent { part := .sym name, result := value }
    return value
  | none => return .sym name

/-- Simplifies an expression by its shape. -/
def node (simplify : Simplifier) : Simplifier
  | .num n => literal n
  | .sym name => symbol name
  | .sum terms => sum simplify terms
  | .prod parts => product simplify parts
  | .pow base exponent => power simplify base exponent
  | .call f functional subscript superscript => call simplify f functional subscript superscript
  | .deriv e vars => derivative simplify e vars
  | .integral e var lower upper => integral simplify e var lower upper

end Simplify

namespace Expr

/-- Simplifies an expression that occurs in the tree, down to the given depth. It is a fault if that
does not suffice. -/
def simplifyAt : Nat → Simplifier
  | 0, _ => throw .exhausted
  | depth + 1, e => Simplify.node (simplifyAt depth) e

/-- The depth to which expressions are simplified. -/
def maxDepth : Nat := 65536

/-- Simplifies an expression that occurs in the tree. -/
def simplify : Simplifier :=
  simplifyAt maxDepth

end Expr

end Workings

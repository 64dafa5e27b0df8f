import Workings.Expr.Build
import Workings.Sheet.Basic

/-!
# Tables of rules

Differentiation and integration are tables of rules. The rules of a table are tried from the top, and
the first one that applies to the shape of an expression is used. A rule takes one step: its result is
not simplified.
-/

namespace Workings

/-- A row of a table: a rule, the expressions it applies to, and its step with respect to a variable. -/
structure Rule where
  id : String
  category : EventCategory
  applies : Expr → Bool
  apply : String → Expr → Expr

namespace Rule

/-- The first rule that applies. -/
def find? (rules : List Rule) (e : Expr) : Option Rule :=
  rules.find? (·.applies e)

/-- The event of a step from one expression to another. -/
def event (id : String) (category : EventCategory) (input output : Expr) : Event :=
  { rule := id, category, input := some input, output := some output }

end Rule

namespace Expr

/-- Shapes of expressions. -/
inductive Shape
  | num
  | sym
  | sum
  | prod
  | pow
  | call
  | deriv
  | integral
  deriving Repr, DecidableEq

/-- The shape of an expression. -/
def shape : Expr → Shape
  | .num _ => .num
  | .sym _ => .sym
  | .sum _ => .sum
  | .prod _ => .prod
  | .pow _ _ => .pow
  | .call _ _ _ _ => .call
  | .deriv _ _ => .deriv
  | .integral _ _ _ _ => .integral

end Expr

end Workings

import Workings.Simplify.Siblings

/-!
# Function calls

The arguments of a call are simplified, and the call is computed if all of them are numbers and the
function has a numeric implementation.
-/

namespace Workings

namespace Simplify

/-- The value of a call with numeric arguments. -/
def computeCall? (bindings : Bindings) (f : Signature) (functional subscript superscript : List Expr) :
    Option (Except String Number) := do
  let implementation ← bindings.function? f
  return implementation (← functional.mapM Expr.number?) (← subscript.mapM Expr.number?)
    (← superscript.mapM Expr.number?)

/-- Simplifies a call. An equal call elsewhere in the tree is left for its own turn. -/
def call (simplify : Simplifier) (f : Signature) (functional subscript superscript : List Expr) :
    Work Expr := do
  let unsimplified := Expr.call f functional subscript superscript
  let (functional, subscript, superscript) ← Work.withBlock functional fun first =>
    Work.withBlock subscript fun second =>
      Work.withBlock superscript fun third => do
        let functional ← block simplify first
        let subscript ← block simplify second
        let superscript ← block simplify third
        return (functional, subscript, superscript)
  let simplified := Expr.call f functional subscript superscript
  let result ← match computeCall? (← get).bindings f functional subscript superscript with
    | some (.ok value) => pure (Expr.num value)
    | some (.error reason) => throw (.undefined reason simplified)
    | none => pure simplified
  let tree := (← get).tree
  if tree.occurrences simplified = 1 then
    Work.change simplified result
  else if tree.occurrences unsimplified = 1 then
    Work.change unsimplified result
  return result

end Simplify

end Workings

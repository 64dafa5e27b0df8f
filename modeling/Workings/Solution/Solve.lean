import Workings.Bindings.Standard
import Workings.Simplify.Basic

/-!
# Solving

`solve` works out an expression: bound symbols are replaced by their values, the expression is
simplified, a value outside of its domain ends the solution at the last valid tree, and derivatives and
integrals that remain make the solution partial.
-/

namespace Workings

namespace Work

/-- Values in a row, with separators that the phrasing may change, as in `a, b and c`. -/
def joinValues (texts : List String) : Work String := do
  let template := (← get).phrasing.template
  let pair ← ask (template "substitution.separator_pair" (some " and "))
  let many ← ask (template "substitution.separator_many" (some ", "))
  match texts with
  | [] => return ""
  | [only] => return only
  | texts => return many.intercalate texts.dropLast ++ pair ++ texts.getLastD ""

/-- Replaces the bound symbols of the tree and gives the new tree. -/
def substituteValues : Work Expr := do
  let sheet ← get
  let substituted := sheet.bindings.replaceSymbols sheet.origin
  if !(substituted == sheet.origin) then
    let listed ← joinValues (sheet.bindings.values.map fun (name, value) =>
      "$" ++ name ++ " = " ++ sheet.write value ++ "$")
    remark (← wording "substitution_intro"
      ("Substitute the given values: " ++ listed ++ ".")
      ("Substitute values: " ++ listed ++ ".")
      [("substitutions", listed)])
    change sheet.origin substituted
  return substituted

/-- The message on a value outside of its domain. -/
def undefinedMessage (expression : Expr) : Work String := do
  let text ← written expression
  match expression with
  | .call f _ _ _ =>
    wording "domain_error_function"
      ("Stop here: $" ++ text ++ "$ is undefined for " ++ f.name ++
        ", so the expression is outside its domain.")
      ("$" ++ text ++ "$ is undefined for " ++ f.name ++ ".")
      [("expression", text), ("function_name", f.name)]
  | _ =>
    wording "domain_error_generic"
      ("Stop here: $" ++ text ++
        "$ is undefined in the real-number domain used by this evaluator.")
      ("$" ++ text ++ "$ is undefined.")
      [("expression", text)]

/-- Ends a solution at the last valid tree if a value is outside of its domain. -/
def recover : Fault → Work Expr
  | .undefined _ expression => do
    report .unsolved "math_domain_error"
    remark (← undefinedMessage expression)
    return (← get).tree
  | fault => throw fault

/-- Works out the tree of a sheet with the given way of simplifying. -/
def solveWith (simplify : Simplifier) : Work Expr := do
  let substituted ← substituteValues
  let result ← tryCatch (do
    match ← simplify substituted with
    | .num n => return .num n.normalize
    | result => return result) recover
  if result.hasCalculus then
    report .partly "symbolic_calculus_remaining"
  return result

end Work

namespace Sheet

/-- Works out the tree of a sheet. The result is the simplified expression and the sheet of the worked
solution. -/
def solve (sheet : Sheet) : Except Fault (Expr × Sheet) :=
  match (Work.solveWith Expr.simplify).run.run sheet with
  | (.ok result, solved) => .ok (result, solved)
  | (.error fault, _) => .error fault

end Sheet

/-- Works out an expression. On a strict sheet a change of a part that does not occur in the tree is
a fault, on a tolerant one it is left out. -/
def solve (e : Expr) (bindings : Bindings) (options : Options) (strict : Bool) :
    Except Fault (Expr × Sheet) :=
  (Sheet.new e bindings options strict).solve

end Workings

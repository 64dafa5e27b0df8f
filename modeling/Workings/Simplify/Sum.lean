import Workings.Expr.Parts
import Workings.LongHand.Addition
import Workings.Simplify.Siblings

/-!
# Sums

The terms of a sum are simplified, nested sums are opened, the numbers are added by long addition, and
terms with the same variable part are combined.
-/

namespace Workings

namespace Simplify

/-- Opens nested sums and products of one factor by one level. -/
def openTerms : List Expr → List Expr
  | [] => []
  | .sum inner :: rest => inner ++ openTerms rest
  | .prod [factor] :: rest => factor :: openTerms rest
  | term :: rest => term :: openTerms rest

/-- Adds a coefficient to the group of its variable part, which is opened if there is none. -/
def addToGroup (coefficient : Number) (part : Expr) :
    List (Number × Expr) → List (Number × Expr)
  | [] => [(coefficient, part)]
  | (total, existing) :: rest =>
    if existing == part then (total + coefficient, existing) :: rest
    else (total, existing) :: addToGroup coefficient part rest

/-- Groups terms by their variable parts, in the order in which these appear first. A number is a group
of its own. -/
def groupTerms (terms : List Expr) : List (Number × Expr) :=
  terms.foldl (fun groups term =>
    match term.variablePart? with
    | none => groups ++ [(term.coefficient, 1)]
    | some part => addToGroup term.coefficient part groups) []

/-- Combines terms with the same variable part. Terms that cancel are left out. -/
def combineLikeTerms (terms : List Expr) : List Expr :=
  ((groupTerms terms).filter fun group => !group.1.isZero).map fun (coefficient, part) =>
    Expr.buildProd [.num coefficient, part]

/-- Adds numbers from left to right. -/
def addAll : Number → List Number → Work Number
  | total, [] => return total
  | total, n :: rest => do addAll (← add total n) rest

/-- The numeric part of a sum, and the sum as it stands in the tree after its numbers were added. -/
def addNumbers (current : Expr) : List Number → Work (Option Number × Expr)
  | [] => return (none, current)
  | [only] => return (some only, current)
  | first :: rest => Work.withBlock [current] fun id => do
    let total ← addAll first rest
    return (some total, ((← get).blockItem? id 0).getD current)

/-- Simplifies a sum. -/
def sum (simplify : Simplifier) (terms : List Expr) : Work Expr := do
  let simplified ← siblings simplify terms
  let terms := if simplified.any Expr.isSum then openTerms simplified else simplified
  if simplified.any Expr.isSum then
    Work.change (.sum simplified) (.sum terms)
  let numbers := terms.filterMap Expr.number?
  let others := terms.filter (!·.isNumber)
  let (total, current) ← addNumbers (.sum terms) numbers
  if others.isEmpty then
    let result := Expr.num (total.getD 0)
    become current result
    return result
  let kept := (total.filter (!·.isZero)).toList.map Expr.num ++ combineLikeTerms others
  if kept.length ≠ total.toList.length + others.length ∨ kept.length = 1 then
    let result := Expr.sumOf kept
    Work.change current result
    return result
  return current

end Simplify

end Workings

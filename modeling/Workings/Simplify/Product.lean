import Workings.Expr.Order
import Workings.LongHand.Multiplication
import Workings.Simplify.Siblings

/-!
# Products

The factors of a product are simplified. A zero takes the whole product and ones are left out. A product
with a sum among its factors is distributed over the first one and simplified again. Otherwise its
numbers are moved to the front and multiplied by long multiplication.
-/

namespace Workings

namespace Simplify

/-- The first sum among factors: its terms, and the other factors. -/
def firstSum? : List Expr → Option (List Expr × List Expr)
  | [] => none
  | .sum terms :: rest => some (terms, rest)
  | factor :: rest => (firstSum? rest).map fun (terms, others) => (terms, factor :: others)

/-- Multiplies numbers from left to right. Once a product is not a number the rest is left over. -/
def multiplyAll : Expr → List Number → Work (Expr × List Expr)
  | result, [] => return (result, [])
  | .num total, n :: rest => do multiplyAll (← multiply true total n) rest
  | result, n :: rest => return (result, (n :: rest).map .num)

/-- Multiplies the numbers of a product, which come first, with the other factors behind them. -/
def multiplyNumbers (current : Expr) (numbers : List Number) (others : List Expr) : Work Expr := do
  let (result, leftover, inTree) ← Work.withBlock [current] fun id => do
    let (result, leftover) ← multiplyAll ((numbers.head?.map Expr.num).getD 1) numbers.tail
    return (result, leftover, ((← get).blockItem? id 0).getD current)
  if others.isEmpty && leftover.isEmpty then
    return result
  let simplified := Expr.buildProd (result :: leftover ++ others)
  become inTree simplified
  return simplified

/-- Simplifies a product whose factors are simplified and of which there are at least two, none of them
`0` or `1`. -/
def factors (simplify : Simplifier) (current : Expr) (kept : List Expr) : Work Expr := do
  match firstSum? kept with
  | some (terms, others) =>
    let distributed := Expr.sum (terms.map fun term => Expr.buildProd (others ++ [term]))
    Work.change current distributed
    simplify distributed
  | none =>
    let sorted := Expr.canonicalSort kept
    let numbers := sorted.filterMap Expr.number?
    let others := sorted.filter (!·.isNumber)
    if numbers.length ≤ 1 then
      let result := Expr.buildProd (numbers.map .num ++ others)
      become current result
      return result
    multiplyNumbers current numbers others

/-- Simplifies a product. -/
def product (simplify : Simplifier) (parts : List Expr) : Work Expr := do
  if parts.any (·.isValue 0) then
    Work.change (.prod parts) 0
    return 0
  let simplified ← siblings simplify parts
  let inTree := Expr.prod simplified
  if simplified.any (·.isValue 0) then
    Work.change inTree 0
    return 0
  match simplified.filter (!·.isValue 1) with
  | [] =>
    Work.change inTree 1
    return 1
  | [only] =>
    Work.change inTree only
    return only
  | kept =>
    become inTree (.prod kept)
    factors simplify (.prod kept) kept

end Simplify

end Workings

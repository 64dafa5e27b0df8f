import Workings.Sheet.Basic

/-!
# Simplifying siblings

The parts of a node are simplified one after the other inside of a block, so that each of them is read
as the changes made by the ones before it left it. How a single expression is simplified is a parameter
here and in the modules for the shapes of expressions.
-/

namespace Workings

/-- A way of simplifying an expression that occurs in the tree. -/
abbrev Simplifier := Expr → Work Expr

namespace Simplify

/-- Simplifies `count` trees of an open block from the given one on. -/
def blockFrom (simplify : Simplifier) (id index : Nat) : Nat → Work (List Expr)
  | 0 => return []
  | count + 1 => do
    match (← get).blockItem? id index with
    | some tree =>
      let simplified ← simplify tree
      return simplified :: (← blockFrom simplify id (index + 1) count)
    | none => blockFrom simplify id (index + 1) count

/-- Simplifies all trees of an open block. -/
def block (simplify : Simplifier) (id : Nat) : Work (List Expr) := do
  blockFrom simplify id 0 ((← get).block id).length

/-- Simplifies siblings. -/
def siblings (simplify : Simplifier) (trees : List Expr) : Work (List Expr) :=
  Work.withBlock trees (block simplify)

/-- Changes a node that has become another one. Nothing is done if they are equal. -/
def become (current result : Expr) : Work Unit := do
  if !(current == result) then
    Work.change current result

end Simplify

end Workings

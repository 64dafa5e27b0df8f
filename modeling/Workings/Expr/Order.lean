import Workings.Expr.Basic

/-!
# The order of factors

Numbers come before everything else, in the order of their values. Expressions that are not numbers
keep their places, and so do numbers that cannot be compared.
-/

namespace Workings

namespace Expr

/-- The order in which factors are written. -/
def canonicalCompare (a b : Expr) : Ordering :=
  match a.number?, b.number? with
  | some m, some n => (m.compare? n).getD .eq
  | some _, none => .lt
  | none, some _ => .gt
  | none, none => .eq

/-- Moves an item left past the items it is strictly below. The list is kept in reverse. -/
def settle (item : Expr) : List Expr → List Expr
  | [] => [item]
  | last :: before =>
    if item.canonicalCompare last == .lt then last :: settle item before else item :: last :: before

/-- Sorts by `canonicalCompare`, keeping the order of items that compare equal. -/
def canonicalSort (items : List Expr) : List Expr :=
  (items.foldl (fun sorted item => settle item sorted) []).reverse

end Expr

end Workings

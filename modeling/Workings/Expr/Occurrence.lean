import Workings.Expr.Build

/-!
# Occurrences

A target occurs in an expression literally or with the opposite sign. A target that is a sum occurs
also in a longer sum that has all of its terms, and a product in a longer product, provided that it
does not occur literally or negated anywhere in the whole expression. `Expr.occurrences` counts
occurrences, and `Expr.replace` puts a replacement in their place, with its sign changed where the sign
of the target was.
-/

namespace Workings

/-- What is looked for: an expression and its negation, and whether part of a longer sum or product
counts. -/
structure Target where
  literal : Expr
  negated : Expr
  inPart : Bool

namespace Target

/-- Whether an expression is the target or its negation. -/
def isWhole (target : Target) (e : Expr) : Bool :=
  e == target.literal || e == target.negated

/-- Removes the items of `wanted` from a list. There is no result unless all of them are there. -/
def difference? (wanted : List Expr) : List Expr → Option (List Expr)
  | [] => if wanted.isEmpty then some [] else none
  | item :: items =>
    if wanted.any (· == item) then difference? (wanted.eraseP (· == item)) items
    else (difference? wanted items).map (item :: ·)

/-- The rest of a list without the items of `wanted`, of which there must be one at least. -/
def leftover? (items wanted : List Expr) : Option (List Expr) :=
  if wanted.isEmpty then none else difference? wanted items

/-- The factors of a product for comparison: nested products and sums of at most one term are opened
by one level, and numbers other than `1` and `-1` keep their magnitude. -/
def plainFactors : List Expr → List Expr
  | [] => []
  | .prod inner :: rest => inner ++ plainFactors rest
  | .sum [] :: rest => plainFactors rest
  | .sum [term] :: rest => term :: plainFactors rest
  | .num n :: rest =>
    if n.abs == (1 : Number) then plainFactors rest else .num n.abs :: plainFactors rest
  | factor :: rest => factor :: plainFactors rest

/-- Whether an odd number of factors are negative numbers. -/
def isNegative (factors : List Expr) : Bool :=
  factors.foldl (fun sign factor => sign ^^ factor.number?.any Number.isNegative) false

/-- The terms of a sum for comparison: nested sums and products of one factor are opened by one level,
and a product of two factors one of which is `-1` is normalized. -/
def plainTerms : List Expr → List Expr
  | [] => []
  | .sum inner :: rest => inner ++ plainTerms rest
  | .prod [factor] :: rest => factor :: plainTerms rest
  | .prod [a, b] :: rest =>
    (if a.isValue (-1) || b.isValue (-1) then Expr.buildProd [a, b] else .prod [a, b]) ::
      plainTerms rest
  | term :: rest => term :: plainTerms rest

/-- The factors left of a product when the factors of a target are taken out, and whether their sign
has to change. A sign that changes from plus to minus needs a number to carry it. -/
def productRest? (factors : List Expr) : Expr → Option (List Expr × Bool)
  | .prod wanted => do
    let rest ← leftover? (plainFactors factors) (plainFactors wanted)
    let negative := isNegative factors != isNegative wanted
    if negative && !isNegative factors && !rest.any Expr.isNumber then none
    else some (rest, negative)
  | _ => none

/-- The terms left of a sum when the terms of a target are taken out. -/
def sumRest? (terms : List Expr) : Expr → Option (List Expr)
  | .sum wanted => leftover? (plainTerms terms) (plainTerms wanted)
  | _ => none

mutual

/-- The number of occurrences in an expression. A sum or a product counts once at most. -/
def count (target : Target) : Expr → Nat
  | .num n => if target.isWhole (.num n) then 1 else 0
  | .sym name => if target.isWhole (.sym name) then 1 else 0
  | .prod factors =>
    if target.isWhole (.prod factors)
      || (target.inPart && (productRest? factors target.literal).isSome)
      || countAny target factors then 1 else 0
  | .sum terms =>
    if target.isWhole (.sum terms)
      || (target.inPart && (sumRest? terms target.literal).isSome)
      || countAny target terms then 1 else 0
  | .pow base exponent =>
    if target.isWhole (.pow base exponent) then 1 else count target base + count target exponent
  | .call f functional subscript superscript =>
    if target.isWhole (.call f functional subscript superscript) then 1
    else countAll target functional + countAll target subscript + countAll target superscript
  | .deriv body vars =>
    if target.isWhole (.deriv body vars) then 1
    else count target body + vars.countP fun v => target.isWhole (.sym v.1)
  | .integral body var lower upper =>
    if target.isWhole (.integral body var lower upper) then 1
    else count target body + (if target.isWhole (.sym var) then 1 else 0) +
      countOption target lower + countOption target upper

/-- Whether there is an occurrence in one of the expressions. -/
def countAny (target : Target) : List Expr → Bool
  | [] => false
  | e :: es => 0 < count target e || countAny target es

/-- The number of occurrences in all of the expressions. -/
def countAll (target : Target) : List Expr → Nat
  | [] => 0
  | e :: es => count target e + countAll target es

/-- The number of occurrences in an expression that may be missing. -/
def countOption (target : Target) : Option Expr → Nat
  | none => 0
  | some e => count target e

end

/-- The search for an expression in a tree. Part of a longer sum or product counts only if there is no
whole occurrence. -/
def within (tree e : Expr) : Target :=
  let whole : Target := ⟨e, e.neg, false⟩
  if count whole tree = 0 then { whole with inPart := true } else whole

end Target

/-- A target together with what takes its place. -/
structure Replacement where
  target : Target
  value : Expr
  negated : Expr

namespace Replacement

/-- What takes the place of a whole expression that is the target or its negation. -/
def whole? (r : Replacement) (e : Expr) : Option Expr :=
  if e == r.target.literal then some r.value
  else if e == r.target.negated then some r.negated
  else none

/-- The new name of a bound variable, which only a symbol can replace. -/
def rename (r : Replacement) (name : String) : String :=
  match r.whole? (.sym name) with
  | some (.sym renamed) => renamed
  | _ => name

/-- The factors of an expression that joins a product. -/
def asFactors : Expr → List Expr
  | .prod inner => inner
  | e => [e]

/-- The terms of an expression that joins a sum. -/
def asTerms : Expr → List Expr
  | .sum inner => inner
  | e => [e]

/-- The product that is left when the target is part of it. -/
def partOfProduct? (r : Replacement) (factors : List Expr) : Option Expr :=
  if r.target.inPart then
    (Target.productRest? factors r.target.literal).map fun (rest, negative) =>
      Expr.unwrap .prod
        (asFactors r.value ++ rest ++ (if negative then [Expr.minusOne] else []))
  else
    none

/-- The sum that is left when the target is part of it. -/
def partOfSum? (r : Replacement) (terms : List Expr) : Option Expr :=
  if r.target.inPart then
    (Target.sumRest? terms r.target.literal).map fun rest =>
      Expr.unwrap .sum (asTerms r.value ++ rest)
  else
    none

/-- Whether a product is `-1` times the negated target. -/
def isNegatedPair (r : Replacement) (factors : List Expr) : Bool :=
  factors.length == 2 && factors.any (·.isValue (-1)) && factors.any (· == r.target.negated)

mutual

/-- Replaces every occurrence in an expression. -/
def apply (r : Replacement) : Expr → Expr
  | .num n => (r.whole? (.num n)).getD (.num n)
  | .sym name => (r.whole? (.sym name)).getD (.sym name)
  | .pow base exponent =>
    (r.whole? (.pow base exponent)).getD (.pow (apply r base) (apply r exponent))
  | .prod factors =>
    (r.whole? (.prod factors)).getD <| (r.partOfProduct? factors).getD <|
      if r.isNegatedPair factors then r.value else .prod (applyAll r factors)
  | .sum terms =>
    (r.whole? (.sum terms)).getD <| (r.partOfSum? terms).getD <| .sum (applyAll r terms)
  | .call f functional subscript superscript =>
    (r.whole? (.call f functional subscript superscript)).getD
      (.call f (applyAll r functional) (applyAll r subscript) (applyAll r superscript))
  | .deriv body vars =>
    (r.whole? (.deriv body vars)).getD
      (.deriv (apply r body) (vars.map fun (name, order) => (r.rename name, order)))
  | .integral body var lower upper =>
    (r.whole? (.integral body var lower upper)).getD
      (.integral (apply r body) (r.rename var) (applyOption r lower) (applyOption r upper))

/-- `apply` in every expression of a list. -/
def applyAll (r : Replacement) : List Expr → List Expr
  | [] => []
  | e :: es => apply r e :: applyAll r es

/-- `apply` in an expression that may be missing. -/
def applyOption (r : Replacement) : Option Expr → Option Expr
  | none => none
  | some e => some (apply r e)

end

end Replacement

namespace Expr

/-- The number of occurrences of a target in an expression. -/
def occurrences (tree target : Expr) : Nat :=
  (Target.within tree target).count tree

/-- Whether a target occurs in an expression. -/
def has (tree target : Expr) : Bool :=
  decide (0 < tree.occurrences target)

/-- The expression with every occurrence of a target replaced. -/
def replace (tree target value : Expr) : Expr :=
  Replacement.apply ⟨Target.within tree target, value, value.neg⟩ tree

end Expr

end Workings

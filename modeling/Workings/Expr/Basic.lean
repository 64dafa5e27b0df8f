import Workings.Number.Basic

/-!
# Expressions

The trees the library works on: numbers, symbols, sums and products of any number of parts, powers,
function calls with three argument slots, and derivatives and integrals that have not been taken.

Two expressions are equal, `a == b`, when they have the same shape and their numbers have the same
values; `Expr.agree` is that comparison for any relation between numbers.
-/

namespace Workings

/-- How many arguments one slot of a function takes. -/
structure Arity where
  min : Nat
  max : Option Nat
  deriving Repr, DecidableEq

namespace Arity

/-- Exactly `n` arguments. -/
def exactly (n : Nat) : Arity := ⟨n, some n⟩

/-- No arguments. -/
def none : Arity := exactly 0

/-- Whether a slot takes `count` arguments. -/
def accepts (a : Arity) (count : Nat) : Bool :=
  decide (a.min ≤ count) && a.max.all (count ≤ ·)

end Arity

/-- The identity of a function: its name and what its parenthesized, subscript and superscript slots
take. -/
structure Signature where
  name : String
  functional : Arity
  subscript : Arity
  superscript : Arity
  deriving Repr, DecidableEq

/-- A function of `count` parenthesized arguments with nothing in its other slots. -/
def Signature.plain (name : String) (count : Nat) : Signature :=
  ⟨name, .exactly count, .none, .none⟩

/-- An expression. A sum of no terms is `0` and a product of no factors is `1`. A derivative lists its
variables in order, each with how often it is differentiated by. These orders are not bounded here, where
32 bits hold those below `2 ^ 32`: only `composeDerivative` raises an order, by one at a time, so the two
part no sooner than after that many derivatives. An integral without both bounds is indefinite. -/
inductive Expr
  | num (n : Number)
  | sym (name : String)
  | sum (terms : List Expr)
  | prod (factors : List Expr)
  | pow (base exponent : Expr)
  | call (function : Signature) (functional subscript superscript : List Expr)
  | deriv (body : Expr) (vars : List (String × Nat))
  | integral (body : Expr) (var : String) (lower upper : Option Expr)

namespace Expr

instance : Inhabited Expr := ⟨.num 0⟩

/-- The integer with the given value. -/
def int (n : Int64) : Expr := .num (.int n)

instance (n : Nat) : OfNat Expr n := ⟨.num (.int (Int64.ofNat n))⟩

/-- Minus one. -/
def minusOne : Expr := .int (-1)

/-- The call of a function of one argument. -/
def call1 (name : String) (argument : Expr) : Expr :=
  .call (.plain name 1) [argument] [] []

/-- The indefinite integral. -/
def indefinite (body : Expr) (var : String) : Expr :=
  .integral body var none none

/-- The derivative taken once. -/
def derivOnce (body : Expr) (var : String) : Expr :=
  .deriv body [(var, 1)]

/-- The number at a leaf. -/
def number? : Expr → Option Number
  | .num n => some n
  | _ => none

/-- Whether the expression is a number. -/
def isNumber (e : Expr) : Bool :=
  e.number?.isSome

/-- Whether the expression is a number of the given value. -/
def isValue (e : Expr) (n : Number) : Bool :=
  e.number?.any (· == n)

/-- Whether the expression is a sum. -/
def isSum : Expr → Bool
  | .sum _ => true
  | _ => false

/-- The direct parts of an expression, from left to right. -/
def children : Expr → List Expr
  | .num _ | .sym _ => []
  | .sum terms => terms
  | .prod factors => factors
  | .pow base exponent => [base, exponent]
  | .call _ functional subscript superscript => functional ++ subscript ++ superscript
  | .deriv body _ => [body]
  | .integral body _ lower upper => body :: (lower.toList ++ upper.toList)

/-- Both bounds of an integral. -/
def bounds? (lower upper : Option Expr) : Option (Expr × Expr) :=
  match lower, upper with
  | some a, some b => some (a, b)
  | _, _ => none

mutual

/-- Same shape, and numbers related by `rel`. -/
def agree (rel : Number → Number → Bool) : Expr → Expr → Bool
  | .num a, .num b => rel a b
  | .sym a, .sym b => a == b
  | .sum as, .sum bs => agreeAll rel as bs
  | .prod as, .prod bs => agreeAll rel as bs
  | .pow a x, .pow b y => agree rel a b && agree rel x y
  | .call f as₁ as₂ as₃, .call g bs₁ bs₂ bs₃ =>
    f == g && agreeAll rel as₁ bs₁ && agreeAll rel as₂ bs₂ && agreeAll rel as₃ bs₃
  | .deriv a vs, .deriv b ws => agree rel a b && vs == ws
  | .integral a v al au, .integral b w bl bu =>
    agree rel a b && v == w && agreeOption rel al bl && agreeOption rel au bu
  | _, _ => false

/-- `agree` part by part. -/
def agreeAll (rel : Number → Number → Bool) : List Expr → List Expr → Bool
  | [], [] => true
  | a :: as, b :: bs => agree rel a b && agreeAll rel as bs
  | _, _ => false

/-- `agree` on a part that may be missing. -/
def agreeOption (rel : Number → Number → Bool) : Option Expr → Option Expr → Bool
  | none, none => true
  | some a, some b => agree rel a b
  | _, _ => false

end

/-- Equality up to the way numbers are stored. -/
instance : BEq Expr := ⟨agree Number.same⟩

mutual

/-- The number of nodes. -/
def size : Expr → Nat
  | .num _ | .sym _ => 1
  | .sum terms => 1 + sizeAll terms
  | .prod factors => 1 + sizeAll factors
  | .pow base exponent => 1 + size base + size exponent
  | .call _ functional subscript superscript =>
    1 + sizeAll functional + sizeAll subscript + sizeAll superscript
  | .deriv body _ => 1 + size body
  | .integral body _ lower upper => 1 + size body + sizeOption lower + sizeOption upper

/-- The number of nodes of a list of expressions. -/
def sizeAll : List Expr → Nat
  | [] => 0
  | e :: es => size e + sizeAll es

/-- The number of nodes of an expression that may be missing. -/
def sizeOption : Option Expr → Nat
  | none => 0
  | some e => size e

end

mutual

/-- Whether a derivative or an integral remains anywhere in the expression. -/
def hasCalculus : Expr → Bool
  | .num _ | .sym _ => false
  | .sum terms => anyCalculus terms
  | .prod factors => anyCalculus factors
  | .pow base exponent => hasCalculus base || hasCalculus exponent
  | .call _ functional subscript superscript =>
    anyCalculus functional || anyCalculus subscript || anyCalculus superscript
  | .deriv _ _ | .integral _ _ _ _ => true

/-- Whether a derivative or an integral remains in one of the expressions. -/
def anyCalculus : List Expr → Bool
  | [] => false
  | e :: es => hasCalculus e || anyCalculus es

end

end Expr

end Workings

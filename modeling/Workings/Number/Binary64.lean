/-!
# What a binary64 word stands for

A `Float` is decoded into the exact value it denotes: a sign, a natural significand and a power of
two, or one of the words that denote no real number. Every question about the value of a float that
is not a plain comparison (is it an integer, is it even, what are its decimal digits) is answered
from this view by exact integer arithmetic.
-/

namespace Workings

/-- The value of a binary64 word: `± significand * 2 ^ exponent`, an infinity, or no number. -/
inductive Binary64
  | nan
  | infinite (negative : Bool)
  | finite (negative : Bool) (significand : Nat) (exponent : Int)
  deriving Repr, DecidableEq

namespace Binary64

/-- Reads the sign, exponent and fraction fields of a word. -/
def ofFloat (x : Float) : Binary64 :=
  let word := x.toBits.toNat
  let negative := decide (Nat.pow 2 63 ≤ word)
  let fraction := word % Nat.pow 2 52
  let biased : Nat := word / Nat.pow 2 52 % Nat.pow 2 11
  if biased = 2047 then
    if fraction = 0 then .infinite negative else .nan
  else if biased = 0 then
    .finite negative fraction (-1074)
  else
    .finite negative (Nat.pow 2 52 + fraction) ((biased : Int) - 1075)

/-- Puts a sign in front of a magnitude. -/
def signed (negative : Bool) (magnitude : Nat) : Int :=
  if negative then -magnitude else magnitude

/-- The value as an integer, if it is one. -/
def toInt? : Binary64 → Option Int
  | .nan | .infinite _ => none
  | .finite negative significand exponent =>
    if 0 ≤ exponent then
      some (signed negative (significand * Nat.pow 2 exponent.toNat))
    else if significand % Nat.pow 2 (-exponent).toNat = 0 then
      some (signed negative (significand / Nat.pow 2 (-exponent).toNat))
    else
      none

/-- The value with its fraction dropped. There is none for an infinity or for no number. -/
def truncate? : Binary64 → Option Int
  | .nan | .infinite _ => none
  | .finite negative significand exponent =>
    if 0 ≤ exponent then
      some (signed negative (significand * Nat.pow 2 exponent.toNat))
    else
      some (signed negative (significand / Nat.pow 2 (-exponent).toNat))

/-- The magnitude of a finite value as a fraction of natural numbers. -/
def fraction (significand : Nat) (exponent : Int) : Nat × Nat :=
  (significand * Nat.pow 2 exponent.toNat, Nat.pow 2 (-exponent).toNat)

end Binary64

end Workings

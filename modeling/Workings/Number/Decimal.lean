import Workings.Number.Binary64
import Workings.Number.Rounding

/-!
# Decimal digits

A finite value is written in decimal in two stages. `Scientific.ofFraction` rounds a positive
fraction to a fixed number of significant digits, which gives a whole number of digits and a power
of ten. `Scientific.decimal` then lays the digits out around a decimal point without an exponent.
-/

namespace Workings

/-- The digits before and after a decimal point, with a sign in front. -/
structure Decimal where
  negative : Bool
  whole : List Char
  fraction : List Char
  deriving Repr, DecidableEq

namespace Decimal

/-- The digits of an integer. -/
def ofInt (n : Int) : Decimal :=
  ⟨decide (n < 0), Nat.toDigits 10 n.natAbs, []⟩

/-- The sign, the digits, and a point only if there are digits after it. -/
def chars (d : Decimal) : List Char :=
  (if d.negative then ['-'] else []) ++ d.whole ++
    (if d.fraction.isEmpty then [] else '.' :: d.fraction)

/-- The number of digits written. -/
def digitCount (d : Decimal) : Nat :=
  d.whole.length + d.fraction.length

/-- All digits read as one natural number. -/
def scaled (d : Decimal) : Nat :=
  Nat.ofDigitChars 10 (d.whole ++ d.fraction) 0

end Decimal

/-- The number `digits * 10 ^ (exponent - count + 1)`, where `count` is the number of digits: the
first digit has the place value `10 ^ exponent`. -/
structure Scientific where
  digits : Nat
  exponent : Int
  deriving Repr, DecidableEq

/-- A list without its trailing zeros. -/
def dropTrailingZeros (digits : List Char) : List Char :=
  (digits.reverse.dropWhile (· == '0')).reverse

/-- `count` zeros. -/
def zeros (count : Nat) : List Char :=
  List.replicate count '0'

namespace Scientific

/-- The exponent `e` with `10 ^ e ≤ num / den < 10 ^ (e + 1)`, for a positive fraction. -/
def leading (num den : Nat) : Int :=
  if den ≤ num then
    ((Nat.toDigits 10 (num / den)).length : Int) - 1
  else
    let places := (Nat.toDigits 10 (den / num)).length
    if den ≤ num * Nat.pow 10 (places - 1) then 1 - (places : Int) else -(places : Int)

/-- Rounds a positive fraction to `count` significant digits, `count` being positive. A carry out of
the first digit raises the exponent. -/
def ofFraction (num den count : Nat) : Scientific :=
  let exponent := leading num den
  let shift : Int := (count : Int) - 1 - exponent
  let digits := divRound (num * Nat.pow 10 shift.toNat) (den * Nat.pow 10 (-shift).toNat)
  if digits = Nat.pow 10 count then ⟨Nat.pow 10 (count - 1), exponent + 1⟩ else ⟨digits, exponent⟩

/-- The digits without trailing zeros. -/
def significant (s : Scientific) : List Char :=
  dropTrailingZeros (Nat.toDigits 10 s.digits)

/-- The digits written without an exponent. -/
def decimal (s : Scientific) (negative : Bool) : Decimal :=
  let digits := s.significant
  let point := s.exponent + 1
  if point ≤ 0 then
    ⟨negative, ['0'], zeros (-point).toNat ++ digits⟩
  else if digits.length ≤ point.toNat then
    ⟨negative, digits ++ zeros (point.toNat - digits.length), []⟩
  else
    ⟨negative, digits.take point.toNat, digits.drop point.toNat⟩

/-- The digits with a point after the first one and the power of ten spelled out with a sign and at
least two digits, as in `1.5e+20`. -/
def chars (s : Scientific) (negative : Bool) : List Char :=
  let mantissa : Decimal := ⟨negative, s.significant.take 1, s.significant.drop 1⟩
  let power := Nat.toDigits 10 s.exponent.natAbs
  mantissa.chars ++ ['e', if s.exponent < 0 then '-' else '+'] ++
    zeros (2 - power.length) ++ power

end Scientific

/-- The decimal expansion of a finite value rounded to `count` significant digits. Zero has one
digit and no sign. -/
def Binary64.decimal (negative : Bool) (significand : Nat) (exponent : Int) (count : Nat) : Decimal :=
  if significand = 0 then
    ⟨false, ['0'], []⟩
  else
    let (num, den) := Binary64.fraction significand exponent
    (Scientific.ofFraction num den count).decimal negative

end Workings

import Workings.Number.Text

/-!
# Place values

A number is split into an integer and a power of ten, or into one component for every digit that is
not zero.
-/

namespace Workings

/-- `10 ^ exponent`, an integer as long as it is a 64-bit word. -/
def powerOfTen (exponent : Int) : Number :=
  if 0 ≤ exponent ∧ exponent ≤ 18 then .int (Int64.ofNat (Nat.pow 10 exponent.toNat))
  else .float (Float.pow 10.0 (Float.ofInt exponent))

namespace Number

/-- The number written with the given digits. -/
def ofDigits (digits : List Char) : Number :=
  .ofInt (Nat.ofDigitChars 10 digits 0)

/-- The integer without trailing zeros and the power of ten whose product is a positive decimal. -/
def scaleDecimal (d : Decimal) : Number × Int :=
  if d.fraction.isEmpty then
    let digits := dropTrailingZeros d.whole
    (ofDigits digits, (d.whole.length : Int) - digits.length)
  else
    (ofDigits (d.whole ++ d.fraction), -(d.fraction.length : Int))

/-- The coefficient and the exponent with `a = coefficient * 10 ^ exponent`, the coefficient being an
integer without trailing zeros. Zero and values without digits have exponent `0`. -/
def scale (a : Number) : Number × Int :=
  if a.isZero then
    (0, 0)
  else
    match a.abs.decimal? with
    | none => (a, 0)
    | some d =>
      let (coefficient, exponent) := scaleDecimal d
      (if a.isNegative then -coefficient else coefficient, exponent)

/-- A number as `c \cdot 10^{e}` between dollar signs. -/
def scaledText (a : Number) : String :=
  let (coefficient, exponent) := a.scale
  if coefficient.isZero then "$0$"
  else "$" ++ coefficient.text ++ " \\cdot 10^\x7b" ++ toString exponent ++ "\x7d$"

/-- The value of a decimal digit. -/
def digitValue (c : Char) : Nat :=
  c.toNat - '0'.toNat

/-- The components of the digits before the point. -/
def wholeComponents (sign : Number) : List Char → List Number
  | [] => []
  | c :: rest =>
    if c = '0' then wholeComponents sign rest
    else .int (Int64.ofNat (digitValue c)) * powerOfTen rest.length * sign :: wholeComponents sign rest

/-- The components of the digits after the point, the first of which has the given place. -/
def fractionComponents (sign : Number) (place : Nat) : List Char → List Number
  | [] => []
  | c :: rest =>
    if c = '0' then fractionComponents sign (place + 1) rest
    else .float (Float.ofScientific (digitValue c) true place) * sign ::
      fractionComponents sign (place + 1) rest

/-- One component for every digit that is not zero, from the highest place down. Zero and values
without digits have the single component `0`. -/
def components (a : Number) : List Number :=
  let sign : Number := if a.isNegative then -1 else 1
  let parts := match a.abs.decimal? with
    | none => []
    | some d => wholeComponents sign d.whole ++ fractionComponents sign 1 d.fraction
  if parts.isEmpty then [0] else parts

end Number

end Workings

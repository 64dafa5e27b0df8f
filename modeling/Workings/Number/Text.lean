import Workings.Number.Basic
import Workings.Number.Decimal

/-!
# Numbers as decimal text

Integers are written verbatim. Floats are rounded to fifteen significant digits and written without
an exponent or trailing zeros. How many digits that takes is the *complexity* of a number, the
measure by which the long-hand methods decide what is too large to work out.
-/

namespace Workings

namespace Number

/-- The number of significant digits kept when a float is written. -/
def significantDigits : Nat := 15

/-- The decimal expansion of a finite number. -/
def decimal? : Number → Option Decimal
  | .int n => some (Decimal.ofInt n.toInt)
  | .float x =>
    match Binary64.ofFloat x with
    | .finite negative significand exponent =>
      some (Binary64.decimal negative significand exponent significantDigits)
    | .infinite _ | .nan => none

/-- The words for values without decimal digits. -/
def wordsFor (x : Float) : List Char :=
  match Binary64.ofFloat x with
  | .infinite false => "inf".toList
  | .infinite true => "-inf".toList
  | _ => "nan".toList

/-- The characters of a number. -/
def chars (a : Number) : List Char :=
  match a.decimal? with
  | some d => d.chars
  | none => wordsFor a.toFloat

/-- The text of a number. -/
def text (a : Number) : String :=
  String.ofList a.chars

/-- The complexity of a value without decimal digits: the largest 64-bit count. -/
def maxComplexity : Nat := Nat.pow 2 64 - 1

/-- The number of decimal digits needed to write a number. -/
def complexity : Number → Nat
  | .int n => (Nat.toDigits 10 n.toInt.natAbs).length
  | .float x => (decimal? (.float x.abs)).elim maxComplexity Decimal.digitCount

/-- The text of a float with `count` significant digits (at least one), with an exponent when the
magnitude is below `10 ^ -4` or not below `10 ^ count`. -/
def generalText (x : Float) (count : Nat) : String :=
  match Binary64.ofFloat x with
  | .finite negative significand exponent =>
    if significand = 0 then
      "0"
    else
      let count := max count 1
      let (num, den) := Binary64.fraction significand exponent
      let rounded := Scientific.ofFraction num den count
      if rounded.exponent < -4 ∨ (count : Int) ≤ rounded.exponent then
        String.ofList (rounded.chars negative)
      else
        String.ofList (rounded.decimal negative).chars
  | .infinite _ | .nan => String.ofList (wordsFor x)

end Number

/-- The number of decimal digits of an integer. -/
def digitCount (n : Int64) : Nat :=
  (Nat.toDigits 10 n.toInt.natAbs).length

/-- The multiple of a power of ten nearest to an integer that keeps `count` significant digits. An
integer that is short enough, or that would need a power of ten beyond `10 ^ 18`, stays as it is,
and a result beyond the range of a word becomes the nearest word. -/
def roundSignificant (n : Int64) (count : Nat) : Int64 :=
  let magnitude := n.toInt.natAbs
  let digits := digitCount n
  if n = 0 ∨ digits ≤ count ∨ 18 < digits - count then
    n
  else
    let scale := Nat.pow 10 (digits - count)
    nearestWord (Binary64.signed (decide (n < 0)) (divRound magnitude scale * scale))

end Workings

import Workings.Number.Binary64

/-!
# Numbers

A number is an exact machine integer or a binary64 value. Integer arithmetic that leaves the range
of a 64-bit word goes on in floating point, and division always does. Numbers are compared by value:
the integer `2` and the float `2.0` are equal, and no-number is equal to itself.
-/

namespace Workings

/-- A number, an exact integer or a floating-point value. -/
inductive Number
  | int (n : Int64)
  | float (x : Float)

/-- The 64-bit word with the given value, if there is one. -/
def word? (n : Int) : Option Int64 :=
  if Int64.minValue.toInt ≤ n ∧ n ≤ Int64.maxValue.toInt then some (Int64.ofInt n) else none

/-- The nearest 64-bit word to the given value. -/
def nearestWord (n : Int) : Int64 :=
  Int64.ofInt (max Int64.minValue.toInt (min n Int64.maxValue.toInt))

/-- Not a number. -/
def notANumber : Float := 0.0 / 0.0

/-- Positive infinity. -/
def infinity : Float := 1.0 / 0.0

/-- The ratio of the circumference of a circle to its diameter, rounded to binary64. -/
def pi : Float := Float.ofBits 0x400921fb54442d18

namespace Number

/-- The integer with the given small value. -/
instance (n : Nat) : OfNat Number n := ⟨.int (Int64.ofNat n)⟩

/-- The value as a float. An integer too long for binary64 is rounded to nearest. -/
def toFloat : Number → Float
  | .int n => Float.ofInt n.toInt
  | .float x => x

/-- Neither infinite nor no-number. -/
def isFinite : Number → Bool
  | .int _ => true
  | .float x => x.isFinite

/-- Without a fractional part. -/
def isInteger : Number → Bool
  | .int _ => true
  | .float x => (Binary64.ofFloat x).toInt?.isSome

/-- Exactly zero, of either sign. -/
def isZero : Number → Bool
  | .int n => n == 0
  | .float x => x == 0.0

/-- Strictly below zero. -/
def isNegative : Number → Bool
  | .int n => decide (n < 0)
  | .float x => decide (x < 0.0)

/-- Not a number. -/
def isNaN (a : Number) : Bool :=
  a.toFloat.isNaN

/-- An integer divisible by two. -/
def isEven : Number → Bool
  | .int n => n.toInt % 2 == 0
  | .float x => (Binary64.ofFloat x).toInt?.any (· % 2 == 0)

/-- The number with the opposite sign. The least word has no opposite word and becomes a float. -/
def neg : Number → Number
  | .int n => (word? (-n.toInt)).elim (.float (-Float.ofInt n.toInt)) .int
  | .float x => .float (-x)

instance : Neg Number := ⟨neg⟩

/-- The magnitude. -/
def abs (a : Number) : Number :=
  if a.isNegative then -a else a

/-- A float with an integer value in the range of a word as that integer, anything else as it is. -/
def normalize : Number → Number
  | .int n => .int n
  | .float x =>
    match (Binary64.ofFloat x).toInt?.bind word? with
    | some n => .int n
    | none => .float x

/-- The value as a word, if it is an integer in range. -/
def toWord? (a : Number) : Option Int64 :=
  match a.normalize with
  | .int n => some n
  | .float _ => none

/-- The exact result if it is a word, the floating-point result otherwise. -/
def exactOr (exact : Int) (rounded : Float) : Number :=
  (word? exact).elim (.float rounded) .int

/-- The word with the given value, or the nearest float if there is none. -/
def ofInt (n : Int) : Number :=
  exactOr n (Float.ofInt n)

/-- Applies the exact operation to two integers as long as the result is a word, and the
floating-point one to anything else. -/
def combine (exact : Int → Int → Int) (rounded : Float → Float → Float) : Number → Number → Number
  | .int a, .int b => exactOr (exact a.toInt b.toInt) (rounded (Float.ofInt a.toInt) (Float.ofInt b.toInt))
  | a, b => .float (rounded a.toFloat b.toFloat)

instance : Add Number := ⟨combine (· + ·) (· + ·)⟩

instance : Sub Number := ⟨combine (· - ·) (· - ·)⟩

instance : Mul Number := ⟨combine (· * ·) (· * ·)⟩

/-- Division gives a float, also between integers that divide evenly. -/
instance : Div Number := ⟨fun a b => .float (a.toFloat / b.toFloat)⟩

/-- `base ^ exponent` as a word. Beyond exponent 63 only `0`, `1` and `-1` have such a power. -/
def wordPow? (base : Int64) (exponent : Nat) : Option Int64 :=
  let magnitude := base.toInt.natAbs
  if magnitude ≤ 1 then
    word? (if base.toInt < 0 ∧ exponent % 2 = 1 then -1 else if exponent = 0 then 1 else magnitude)
  else if exponent ≤ 63 then
    let power := Nat.pow magnitude exponent
    word? (if base.toInt < 0 ∧ exponent % 2 = 1 then -(power : Int) else power)
  else
    none

/-- The power of two numbers, exact between integers as long as the exponent is a natural number
below `2 ^ 32` and the result is a word. There is none when finite operands give an infinite
result. -/
def pow? (base exponent : Number) : Option Number :=
  match exactPow? base exponent with
  | some n => some (.int n)
  | none =>
    let value := base.toFloat.pow exponent.toFloat
    if value.isInf && base.isFinite && exponent.isFinite then none else some (.float value)
where
  /-- The power computed on words. -/
  exactPow? : Number → Number → Option Int64
    | .int b, .int e => if 0 ≤ e.toInt ∧ e.toInt < 4294967296 then wordPow? b e.toInt.toNat else none
    | _, _ => none

/-- Equality of values. -/
def same : Number → Number → Bool
  | .int a, .int b => a == b
  | .float a, .float b => a == b || (a.isNaN && b.isNaN)
  | .int a, .float b => toWord? (.float b) == some a
  | .float a, .int b => toWord? (.float a) == some b

instance : BEq Number := ⟨same⟩

/-- Equality of normalized forms, floats being told apart by their bits. -/
def identical (a b : Number) : Bool :=
  match a.normalize, b.normalize with
  | .int a, .int b => a == b
  | .float a, .float b => a.toBits == b.toBits || (a.isNaN && b.isNaN)
  | _, _ => false

/-- The order of floats. No-number is not comparable. -/
def compareFloat? (a b : Float) : Option Ordering :=
  if a < b then some .lt
  else if b < a then some .gt
  else if a == b then some .eq
  else none

/-- The order of values: exact between integers, in floating point otherwise. -/
def compare? : Number → Number → Option Ordering
  | .int a, .int b => some (compare a b)
  | a, b => compareFloat? a.toFloat b.toFloat

/-- Comparable and below. -/
def lt (a b : Number) : Bool :=
  a.compare? b == some .lt

/-- Comparable and not above. -/
def le (a b : Number) : Bool :=
  a.compare? b == some .lt || a.compare? b == some .eq

end Number

end Workings

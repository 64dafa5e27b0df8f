import Mathlib
import Workings.Number.Basic

/-!
# Integers in words

A number is `Number.Whole` if it is an integer with an opposite, which excludes floats and the least
word. Arithmetic on integers is exact as long as the result is in the range of a word
(`Number.Whole.add`, `Number.Whole.mul`).
-/

namespace Workings

/-- The value is in the range of a word. -/
def InRange (n : Int) : Prop :=
  -2 ^ 63 ≤ n ∧ n < 2 ^ 63

theorem inRange_toInt (n : Int64) : InRange n.toInt :=
  ⟨n.le_toInt, n.toInt_lt⟩

theorem toInt_ofInt {n : Int} (h : InRange n) : (Int64.ofInt n).toInt = n :=
  Int64.toInt_ofInt_of_le h.1 h.2

theorem word?_eq_some {n : Int} (h : InRange n) : word? n = some (Int64.ofInt n) := by
  unfold word?
  rw [if_pos]
  have hmin : Int64.minValue.toInt = -2 ^ 63 := by decide
  have hmax : Int64.maxValue.toInt = 2 ^ 63 - 1 := by decide
  rw [hmin, hmax]
  obtain ⟨hlow, hhigh⟩ := h
  omega

namespace Number

theorem exactOr_eq {n : Int} (h : InRange n) (x : Float) : exactOr n x = .int (Int64.ofInt n) := by
  unfold exactOr
  rw [word?_eq_some h]
  rfl

theorem ofInt_eq {n : Int} (h : InRange n) : Number.ofInt n = .int (Int64.ofInt n) :=
  exactOr_eq h _

theorem int_add {a b : Int64} (h : InRange (a.toInt + b.toInt)) :
    Number.int a + Number.int b = .int (Int64.ofInt (a.toInt + b.toInt)) :=
  exactOr_eq h _

theorem int_mul {a b : Int64} (h : InRange (a.toInt * b.toInt)) :
    Number.int a * Number.int b = .int (Int64.ofInt (a.toInt * b.toInt)) :=
  exactOr_eq h _

/-- An integer with an opposite. -/
def Whole : Number → Prop
  | .int n => n ≠ Int64.minValue
  | .float _ => False

instance (n : Number) : Decidable n.Whole :=
  match n with
  | .int n => inferInstanceAs (Decidable (n ≠ Int64.minValue))
  | .float _ => isFalse id

/-- The value of an integer. -/
def toInt : Number → Int
  | .int n => n.toInt
  | .float _ => 0

theorem Whole.exists_int {n : Number} (h : n.Whole) : ∃ k : Int64, n = .int k := by
  cases n with
  | float x => exact h.elim
  | int k => exact ⟨k, rfl⟩

theorem Whole.eq_of_toInt {a b : Number} (ha : a.Whole) (hb : b.Whole) (h : a.toInt = b.toInt) :
    a = b := by
  cases a with
  | float x => exact ha.elim
  | int m =>
    cases b with
    | float y => exact hb.elim
    | int n => exact congrArg Number.int (Int64.toInt_inj.1 h)

theorem Whole.eq_of_same {a b : Number} (ha : a.Whole) (hb : b.Whole) (h : a.same b = true) :
    a = b := by
  cases a with
  | float x => exact ha.elim
  | int m =>
    cases b with
    | float y => exact hb.elim
    | int n => exact congrArg Number.int (beq_iff_eq.1 h)

theorem Whole.beq_self {n : Number} (h : n.Whole) : (n == n) = true := by
  cases n with
  | float x => exact h.elim
  | int n => exact beq_self_eq_true n

theorem Whole.beq_iff {n : Number} (h : n.Whole) {k : Int64} :
    (n == .int k) = true ↔ n.toInt = k.toInt := by
  cases n with
  | float x => exact h.elim
  | int n =>
    show (n == k) = true ↔ n.toInt = k.toInt
    exact beq_iff_eq.trans Int64.toInt_inj.symm

theorem isNegative_int (n : Int64) : (Number.int n).isNegative = true ↔ n.toInt < 0 :=
  decide_eq_true_iff.trans Int64.lt_iff_toInt_lt

theorem inRange_neg {n : Int64} (h : n ≠ Int64.minValue) : InRange (-n.toInt) := by
  have hmin : n.toInt ≠ -2 ^ 63 := by
    intro heq
    have : n = Int64.minValue := Int64.toInt_inj.1 (heq.trans (by decide))
    exact h this
  obtain ⟨hlow, hhigh⟩ := inRange_toInt n
  constructor <;> omega

theorem toInt_neg {n : Int64} (h : n ≠ Int64.minValue) : (-n).toInt = -n.toInt := by
  rw [Int64.toInt_neg]
  obtain ⟨hlow, hhigh⟩ := inRange_neg h
  exact Int.bmod_eq_of_le (by omega) (by omega)

theorem neg_int {n : Int64} (h : n ≠ Int64.minValue) : -(Number.int n) = .int (-n) := by
  have hword : word? (-n.toInt) = some (-n) := by
    rw [word?_eq_some (inRange_neg h)]
    rw [← toInt_neg h, Int64.ofInt_toInt]
  show (word? (-n.toInt)).elim _ _ = _
  rw [hword]
  rfl

theorem Whole.natAbs_lt {n : Number} (hn : n.Whole) : n.toInt.natAbs < 2 ^ 63 := by
  cases n with
  | float x => exact hn.elim
  | int n =>
    obtain ⟨hlow, hhigh⟩ := inRange_toInt n
    obtain ⟨hlow', hhigh'⟩ := inRange_neg hn
    show n.toInt.natAbs < 2 ^ 63
    omega

theorem Whole.neg {n : Number} (h : n.Whole) : (-n).Whole := by
  cases n with
  | float x => exact h.elim
  | int n =>
    rw [neg_int h]
    intro hmin
    have hneg : -n.toInt = -2 ^ 63 := by
      rw [← toInt_neg h, hmin]
      decide
    have := (inRange_toInt n).2
    omega

theorem Whole.toInt_neg {n : Number} (h : n.Whole) : (-n).toInt = -n.toInt := by
  cases n with
  | float x => exact h.elim
  | int n =>
    rw [neg_int h]
    exact Number.toInt_neg h

theorem whole_ofInt {n : Int} (h : n.natAbs < 2 ^ 63) :
    (Number.int (Int64.ofInt n)).Whole ∧ (Number.int (Int64.ofInt n)).toInt = n := by
  have hvalue : (Int64.ofInt n).toInt = n := toInt_ofInt ⟨by omega, by omega⟩
  refine ⟨fun hmin => ?_, hvalue⟩
  rw [hmin, show Int64.minValue.toInt = -2 ^ 63 by decide] at hvalue
  omega

/-- A sum of integers is exact if it is the value of an integer with an opposite. -/
theorem Whole.add {a b : Number} (ha : a.Whole) (hb : b.Whole)
    (h : (a.toInt + b.toInt).natAbs < 2 ^ 63) :
    (a + b).Whole ∧ (a + b).toInt = a.toInt + b.toInt := by
  cases a with
  | float x => exact ha.elim
  | int m =>
    cases b with
    | float y => exact hb.elim
    | int n =>
      have hrange : InRange (m.toInt + n.toInt) := by
        change (m.toInt + n.toInt).natAbs < 2 ^ 63 at h
        constructor <;> omega
      rw [int_add hrange]
      exact whole_ofInt h

/-- A product of integers is exact if it is the value of an integer with an opposite. -/
theorem Whole.mul {a b : Number} (ha : a.Whole) (hb : b.Whole)
    (h : (a.toInt * b.toInt).natAbs < 2 ^ 63) :
    (a * b).Whole ∧ (a * b).toInt = a.toInt * b.toInt := by
  cases a with
  | float x => exact ha.elim
  | int m =>
    cases b with
    | float y => exact hb.elim
    | int n =>
      have hrange : InRange (m.toInt * n.toInt) := by
        change (m.toInt * n.toInt).natAbs < 2 ^ 63 at h
        constructor <;> omega
      rw [int_mul hrange]
      exact whole_ofInt h

/-- The power of an integer is that of its magnitude, with a sign if the exponent is odd. -/
theorem signed_pow (n : Int) (k : Nat) :
    (if n < 0 ∧ k % 2 = 1 then -((n.natAbs ^ k : Nat) : Int) else (n.natAbs ^ k : Nat)) = n ^ k := by
  rw [Int.natCast_pow]
  split
  · rename_i hodd
    rw [← (Nat.odd_iff.2 hodd.2).neg_pow, show -(n.natAbs : Int) = n by omega]
  · rename_i hnot
    rcases lt_or_ge n 0 with hneg | hnonneg
    · rw [← (Nat.even_iff.2 (by omega) : Even k).neg_pow, show -(n.natAbs : Int) = n by omega]
    · rw [show (n.natAbs : Int) = n by omega]

/-- A power of an integer is exact if it is the value of an integer with an opposite. -/
theorem pow?_int {b e c : Int64} (hb : 2 ≤ b.toInt.natAbs) (he : 0 ≤ e.toInt)
    (hbound : b.toInt.natAbs ^ e.toInt.toNat < 2 ^ 63) (hc : c.toInt = b.toInt ^ e.toInt.toNat) :
    pow? (.int b) (.int e) = some (.int c) := by
  have hexponent : e.toInt.toNat < 63 := by
    by_contra hnot
    have hpower : 2 ^ 63 ≤ b.toInt.natAbs ^ e.toInt.toNat :=
      (Nat.pow_le_pow_right (by decide) (not_lt.1 hnot)).trans (Nat.pow_le_pow_left hb _)
    omega
  have hword : wordPow? b e.toInt.toNat = some c := by
    unfold wordPow?
    dsimp only
    rw [if_neg (by omega), if_pos (by omega), Nat.pow_eq, signed_pow, ← hc,
      word?_eq_some (inRange_toInt c), Int64.ofInt_toInt]
  have hexact : pow?.exactPow? (.int b) (.int e) = some c := by
    rw [pow?.exactPow?, if_pos (by omega), hword]
  rw [pow?, hexact]

theorem Whole.abs {n : Number} (h : n.Whole) : n.abs.Whole := by
  unfold Number.abs
  split
  · exact h.neg
  · exact h

end Number

end Workings

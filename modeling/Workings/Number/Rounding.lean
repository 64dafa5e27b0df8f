/-!
# Division rounded to nearest

`divRound num den` is the natural number nearest to `num / den`, a tie going to the even neighbour.
It is the only rounding rule of the library: decimal digits of floats and significant digits of
integers both come from it.
-/

namespace Workings

/-- The quotient nearest to `num / den`; of two equally near ones, the even one. -/
def divRound (num den : Nat) : Nat :=
  let quotient := num / den
  let twice := 2 * (num % den)
  if den < twice ∨ (twice = den ∧ quotient % 2 = 1) then quotient + 1 else quotient

/-- Rounding never moves a quotient by more than half a unit. -/
theorem divRound_near (num den : Nat) (pos : 0 < den) :
    2 * (divRound num den * den) ≤ 2 * num + den ∧ 2 * num ≤ 2 * (divRound num den * den) + den := by
  have split := Nat.div_add_mod num den
  have bound := Nat.mod_lt num pos
  rw [Nat.mul_comm] at split
  simp only [divRound]
  split
  · rw [Nat.add_mul]
    omega
  · omega

/-- An exact quotient is its own rounding. -/
theorem divRound_mul (quotient den : Nat) (pos : 0 < den) :
    divRound (quotient * den) den = quotient := by
  simp only [divRound]
  rw [Nat.mul_mod_left, Nat.mul_div_cancel _ pos, if_neg (by omega)]

/-- Rounding keeps the order of quotients with one divisor. -/
theorem divRound_mono {num num' : Nat} (den : Nat) (le : num ≤ num') :
    divRound num den ≤ divRound num' den := by
  have quotient := Nat.div_le_div_right (c := den) le
  have split := Nat.div_add_mod num den
  have split' := Nat.div_add_mod num' den
  simp only [divRound]
  rcases Nat.lt_or_eq_of_le quotient with less | same
  · split <;> split <;> omega
  · rw [same] at split ⊢
    split <;> split <;> omega

theorem le_divRound {num den low : Nat} (pos : 0 < den) (le : low * den ≤ num) :
    low ≤ divRound num den := by
  rw [← divRound_mul low den pos]
  exact divRound_mono den le

theorem divRound_le {num den high : Nat} (pos : 0 < den) (le : num ≤ high * den) :
    divRound num den ≤ high := by
  rw [← divRound_mul high den pos]
  exact divRound_mono den le

/-- A quotient half way between two integers goes to the even one. -/
theorem divRound_even (num den : Nat) (pos : 0 < den)
    (tie : 2 * (divRound num den * den) = 2 * num + den ∨ 2 * num = 2 * (divRound num den * den) + den) :
    divRound num den % 2 = 0 := by
  have split := Nat.div_add_mod num den
  have bound := Nat.mod_lt num pos
  rw [Nat.mul_comm] at split
  simp only [divRound] at tie ⊢
  split at tie
  · rw [if_pos ‹_›]
    rw [Nat.add_mul] at tie
    omega
  · rw [if_neg ‹_›]
    omega

end Workings

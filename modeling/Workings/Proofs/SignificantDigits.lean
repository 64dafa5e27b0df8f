import Workings.Number.Text
import Workings.Proofs.Digits

/-!
# Significant digits

An integer is rounded to some significant digits in one step: the place of the last digit that is kept is
fixed by the number of digits, and the integer goes to the nearest multiple of it, a tie to the one with the
even quotient. Since every power of ten that an integer reaches is a multiple of its last place, rounding does not
lead across a power of ten (`roundDigits_between`). From this it follows that rounding keeps the order of integers
with different numbers of digits and has nothing left to do the second time, also if it has carried into one more
digit (`roundSignificant_nearest`).
-/

namespace Workings

/-! ### Multiples of a unit -/

section

variable {unit m : ℕ}

/-- Rounding to multiples of a unit does not lead below a multiple. -/
theorem le_divRound_mul {low : ℕ} (hunit : 0 < unit) (hdvd : unit ∣ low) (hle : low ≤ m) :
    low ≤ divRound m unit * unit := by
  obtain ⟨quotient, rfl⟩ := hdvd
  rw [Nat.mul_comm] at hle ⊢
  exact Nat.mul_le_mul_right unit (le_divRound hunit hle)

/-- Rounding to multiples of a unit does not lead above a multiple. -/
theorem divRound_mul_le {high : ℕ} (hunit : 0 < unit) (hdvd : unit ∣ high) (hle : m ≤ high) :
    divRound m unit * unit ≤ high := by
  obtain ⟨quotient, rfl⟩ := hdvd
  rw [Nat.mul_comm unit] at hle ⊢
  exact Nat.mul_le_mul_right unit (divRound_le hunit hle)

theorem divRound_mul_of_dvd (hunit : 0 < unit) (hdvd : unit ∣ m) : divRound m unit * unit = m := by
  obtain ⟨quotient, rfl⟩ := hdvd
  rw [Nat.mul_comm unit, divRound_mul quotient unit hunit]

end

/-- The multiple of a unit that is nearest to an integer. Of two that are equally near it is the one with the even
quotient. -/
def NearestMultiple (unit : ℕ) (v r : ℤ) : Prop :=
  ∃ quotient : ℤ, r = quotient * unit ∧ ∀ k : ℤ,
    |v - r| < |v - k * unit| ∨ |v - r| = |v - k * unit| ∧ (k = quotient ∨ Even quotient)

/-- A multiple that is at most half a unit away is the nearest one. -/
theorem nearestMultiple_of_close {unit : ℕ} {v quotient : ℤ} (hclose : 2 * |v - quotient * unit| ≤ unit)
    (htie : 2 * |v - quotient * unit| = unit → Even quotient) :
    NearestMultiple unit v (quotient * unit) := by
  refine ⟨quotient, rfl, fun k => ?_⟩
  by_cases hk : k = quotient
  · exact .inr ⟨by rw [hk], .inl hk⟩
  · have hapart : (unit : ℤ) ≤ |k * unit - quotient * unit| := by
      rw [← sub_mul, abs_mul, Nat.abs_cast]
      exact le_mul_of_one_le_left (Int.natCast_nonneg unit) (Int.one_le_abs (sub_ne_zero.2 hk))
    have htriangle : |k * unit - quotient * unit| ≤ |v - quotient * unit| + |v - k * unit| := by
      have := abs_sub_le (k * unit : ℤ) v (quotient * unit)
      rwa [abs_sub_comm _ v, add_comm] at this
    rcases lt_or_eq_of_le (show |v - quotient * unit| ≤ |v - k * unit| by omega) with hlt | heq
    · exact .inl hlt
    · exact .inr ⟨heq, .inr (htie (by omega))⟩

theorem NearestMultiple.neg {unit : ℕ} {v r : ℤ} (h : NearestMultiple unit v r) :
    NearestMultiple unit (-v) (-r) := by
  obtain ⟨quotient, rfl, hnearest⟩ := h
  have hmirror (a : ℤ) : |-v - a| = |v - -a| := by
    rw [← abs_neg]
    congr 1
    ring
  refine ⟨-quotient, by ring, fun k => ?_⟩
  rw [hmirror, hmirror, neg_neg, ← neg_mul, even_neg, ← neg_eq_iff_eq_neg]
  exact hnearest (-k)

theorem nearestMultiple_divRound {unit : ℕ} (hunit : 0 < unit) (m : ℕ) :
    NearestMultiple unit m (divRound m unit * unit : ℕ) := by
  obtain ⟨hlow, hhigh⟩ := divRound_near m unit hunit
  have heven := divRound_even m unit hunit
  have hdistance : |(m : ℤ) - (divRound m unit : ℕ) * unit| =
      (m - divRound m unit * unit : ℕ) + (divRound m unit * unit - m : ℕ) := by
    rw [← Nat.cast_mul]
    rcases le_total (divRound m unit * unit) m with hle | hle
    · rw [abs_of_nonneg (by omega)]
      omega
    · rw [abs_of_nonpos (by omega)]
      omega
  rw [Nat.cast_mul]
  refine nearestMultiple_of_close ?_ fun htie => ?_
  · rw [hdistance]
    omega
  · rw [hdistance] at htie
    exact_mod_cast Nat.even_iff.2 (heven (by omega))

/-! ### Rounding magnitudes -/

/-- The place of the last of the significant digits of a number. -/
def lastPlace (count m : ℕ) : ℕ :=
  10 ^ ((Nat.toDigits 10 m).length - count)

/-- A number rounded to some significant digits. -/
def roundDigits (count m : ℕ) : ℕ :=
  divRound m (lastPlace count m) * lastPlace count m

theorem lastPlace_pos (count m : ℕ) : 0 < lastPlace count m :=
  Nat.pow_pos (by decide)

section

variable {count m k : ℕ}

theorem length_toDigits_eq (hlow : 10 ^ k ≤ m) (hhigh : m < 10 ^ (k + 1)) :
    (Nat.toDigits 10 m).length = k + 1 := by
  obtain ⟨j, hj, hlow', hhigh'⟩ := exists_length_toDigits ((Nat.pow_pos (by decide)).trans_le hlow)
  have hle : k < j + 1 := (Nat.pow_lt_pow_iff_right (by decide)).1 (hlow.trans_lt hhigh')
  have hge : j < k + 1 := (Nat.pow_lt_pow_iff_right (by decide)).1 (hlow'.trans_lt hhigh)
  omega

/-- The last place divides every power of ten above the first digit, and that of the first digit as well if at
least one digit is kept. -/
theorem lastPlace_dvd (hcount : 1 ≤ count) (hlow : 10 ^ k ≤ m) (hhigh : m < 10 ^ (k + 1)) :
    lastPlace count m ∣ 10 ^ k := by
  rw [lastPlace, length_toDigits_eq hlow hhigh]
  exact Nat.pow_dvd_pow 10 (by omega)

theorem roundDigits_of_dvd (h : lastPlace count m ∣ m) : roundDigits count m = m :=
  divRound_mul_of_dvd (lastPlace_pos count m) h

theorem lastPlace_of_short (h : (Nat.toDigits 10 m).length ≤ count) : lastPlace count m = 1 := by
  rw [lastPlace, Nat.sub_eq_zero_of_le h, pow_zero]

theorem roundDigits_zero (count : ℕ) : roundDigits count 0 = 0 :=
  roundDigits_of_dvd (dvd_zero _)

/-- Rounding does not lead across a power of ten. -/
theorem roundDigits_between (hcount : 1 ≤ count) (hlow : 10 ^ k ≤ m) (hhigh : m < 10 ^ (k + 1)) :
    10 ^ k ≤ roundDigits count m ∧ roundDigits count m ≤ 10 ^ (k + 1) := by
  have hdvd := lastPlace_dvd hcount hlow hhigh
  exact ⟨le_divRound_mul (lastPlace_pos count m) hdvd hlow,
    divRound_mul_le (lastPlace_pos count m) (hdvd.trans (Nat.pow_dvd_pow 10 k.le_succ)) hhigh.le⟩

/-- Rounding keeps the order. Between numbers with different numbers of digits there is a power of ten. -/
theorem roundDigits_mono (hcount : 1 ≤ count) {m' : ℕ} (hle : m ≤ m') :
    roundDigits count m ≤ roundDigits count m' := by
  rcases Nat.eq_zero_or_pos m with rfl | hpos
  · rw [roundDigits_zero]
    exact Nat.zero_le _
  obtain ⟨k, hk, hlow, hhigh⟩ := exists_length_toDigits hpos
  obtain ⟨k', hk', hlow', hhigh'⟩ := exists_length_toDigits (hpos.trans_le hle)
  rcases lt_or_ge m' (10 ^ (k + 1)) with hsame | hmore
  · have hplace : lastPlace count m' = lastPlace count m := by
      rw [lastPlace, lastPlace, hk, length_toDigits_eq (hlow.trans hle) hsame]
    rw [roundDigits, roundDigits, hplace]
    exact Nat.mul_le_mul_right _ (divRound_mono _ hle)
  · have hplaces : k + 1 < k' + 1 := (Nat.pow_lt_pow_iff_right (by decide)).1 (hmore.trans_lt hhigh')
    calc roundDigits count m
        ≤ 10 ^ (k + 1) := (roundDigits_between hcount hlow hhigh).2
      _ ≤ 10 ^ k' := Nat.pow_le_pow_right (by decide) (by omega)
      _ ≤ roundDigits count m' := (roundDigits_between hcount hlow' hhigh').1

/-- The last place of what has been rounded is the same, or ten times as large if there is one more digit. -/
theorem lastPlace_roundDigits_dvd (hcount : 1 ≤ count) (m : ℕ) :
    lastPlace count (roundDigits count m) ∣ roundDigits count m := by
  rcases Nat.eq_zero_or_pos m with rfl | hpos
  · rw [roundDigits_zero]
    exact dvd_zero _
  obtain ⟨k, hk, hlow, hhigh⟩ := exists_length_toDigits hpos
  obtain ⟨hlow', hhigh'⟩ := roundDigits_between hcount hlow hhigh
  rcases lt_or_eq_of_le hhigh' with hlt | heq
  · have hplace : lastPlace count (roundDigits count m) = lastPlace count m := by
      rw [lastPlace, lastPlace, hk, length_toDigits_eq hlow' hlt]
    rw [hplace]
    exact dvd_mul_left _ _
  · rw [heq]
    exact lastPlace_dvd hcount le_rfl (Nat.pow_lt_pow_right (by decide) (Nat.lt_succ_self _))

theorem roundDigits_idem (hcount : 1 ≤ count) (m : ℕ) :
    roundDigits count (roundDigits count m) = roundDigits count m :=
  roundDigits_of_dvd (lastPlace_roundDigits_dvd hcount m)

end

/-! ### Rounding words -/

/-- An integer rounded to some significant digits. -/
def roundInteger (count : ℕ) (v : ℤ) : ℤ :=
  v.sign * roundDigits count v.natAbs

section

variable {count : ℕ} {v w : ℤ}

theorem roundInteger_natCast (count m : ℕ) : roundInteger count m = roundDigits count m := by
  rcases Nat.eq_zero_or_pos m with rfl | hpos
  · simp [roundInteger, roundDigits_zero]
  · rw [roundInteger, Int.sign_eq_one_of_pos (by omega), one_mul, Int.natAbs_natCast]

theorem natAbs_roundInteger (count : ℕ) (v : ℤ) :
    (roundInteger count v).natAbs = roundDigits count v.natAbs := by
  rcases eq_or_ne v 0 with rfl | hne
  · simp [roundInteger, roundDigits_zero]
  · rw [roundInteger, Int.natAbs_mul, Int.natAbs_sign_of_ne_zero hne, one_mul, Int.natAbs_natCast]

theorem roundInteger_of_dvd (h : lastPlace count v.natAbs ∣ v.natAbs) : roundInteger count v = v := by
  rw [roundInteger, roundDigits_of_dvd h, Int.sign_mul_natAbs]

theorem roundInteger_neg (count : ℕ) (v : ℤ) : roundInteger count (-v) = -roundInteger count v := by
  rw [roundInteger, roundInteger, Int.sign_neg, Int.natAbs_neg, neg_mul]

theorem roundInteger_mono (hcount : 1 ≤ count) (hle : v ≤ w) :
    roundInteger count v ≤ roundInteger count w := by
  obtain ⟨m, rfl | rfl⟩ := v.eq_nat_or_neg <;> obtain ⟨n, rfl | rfl⟩ := w.eq_nat_or_neg <;>
    simp only [roundInteger_neg, roundInteger_natCast]
  · exact_mod_cast roundDigits_mono hcount (by omega)
  · obtain ⟨rfl, rfl⟩ : m = 0 ∧ n = 0 := by omega
    simp [roundDigits_zero]
  · omega
  · have := roundDigits_mono hcount (show n ≤ m by omega)
    omega

theorem roundInteger_idem (hcount : 1 ≤ count) (v : ℤ) :
    roundInteger count (roundInteger count v) = roundInteger count v := by
  obtain ⟨m, rfl | rfl⟩ := v.eq_nat_or_neg <;>
    simp only [roundInteger_neg, roundInteger_natCast, roundDigits_idem hcount]

/-- The last digit that is kept is that of a multiple of its place. -/
theorem nearestMultiple_roundInteger (count : ℕ) (v : ℤ) :
    NearestMultiple (lastPlace count v.natAbs) v (roundInteger count v) := by
  have hmagnitude (m : ℕ) := nearestMultiple_divRound (lastPlace_pos count m) m
  obtain ⟨m, rfl | rfl⟩ := v.eq_nat_or_neg
  · rw [roundInteger_natCast]
    exact hmagnitude m
  · rw [roundInteger_neg, roundInteger_natCast, Int.natAbs_neg]
    exact (hmagnitude m).neg

end

/-- The words that may be rounded to any number of digits: no multiple of a power of ten above them is out of the
range of a word. -/
def Roundable (n : Int64) : Prop :=
  n.toInt.natAbs ≤ 9 * 10 ^ 18

instance (n : Int64) : Decidable (Roundable n) :=
  inferInstanceAs (Decidable (n.toInt.natAbs ≤ 9 * 10 ^ 18))

theorem length_toDigits_le {m : ℕ} (hm : m ≤ 9 * 10 ^ 18) : (Nat.toDigits 10 m).length ≤ 19 :=
  (Nat.length_toDigits_le_iff (by decide) (by decide)).2 (by omega)

/-- What is rounded has the magnitude of a word that may be rounded. -/
theorem roundDigits_le {count m : ℕ} (hcount : 1 ≤ count) (hm : m ≤ 9 * 10 ^ 18) :
    roundDigits count m ≤ 9 * 10 ^ 18 := by
  have hdigits := length_toDigits_le hm
  have hdvd : lastPlace count m ∣ 10 ^ 18 := Nat.pow_dvd_pow 10 (by omega)
  exact divRound_mul_le (lastPlace_pos count m) (dvd_mul_of_dvd_right hdvd 9) hm

theorem toInt_nearestWord {n : ℤ} (h : InRange n) : (nearestWord n).toInt = n := by
  have hmin : Int64.minValue.toInt = -2 ^ 63 := by decide
  have hmax : Int64.maxValue.toInt = 2 ^ 63 - 1 := by decide
  obtain ⟨hlow, hhigh⟩ := h
  rw [nearestWord, hmin, hmax, max_eq_right (le_min hlow (by omega)), min_eq_left (by omega),
    toInt_ofInt ⟨hlow, hhigh⟩]

namespace Roundable

variable {n : Int64} {count : ℕ}

theorem neg (h : Roundable n) : (-n).toInt = -n.toInt ∧ Roundable (-n) := by
  have hmin : n ≠ Int64.minValue := by
    rintro rfl
    exact absurd h (by decide)
  have hvalue := Number.toInt_neg hmin
  refine ⟨hvalue, ?_⟩
  unfold Roundable at *
  rw [hvalue, Int.natAbs_neg]
  exact h

/-- Words are rounded as integers are. -/
theorem toInt_round (h : Roundable n) (hcount : 1 ≤ count) :
    (roundSignificant n count).toInt = roundInteger count n.toInt := by
  have hbound := roundDigits_le hcount h
  have hdigits := length_toDigits_le h
  unfold roundSignificant digitCount
  dsimp only
  split
  · rename_i hshort
    refine (roundInteger_of_dvd ?_).symm
    rcases hshort with rfl | hshort | hlong
    · exact dvd_zero _
    · rw [lastPlace_of_short hshort]
      exact one_dvd _
    · omega
  · rename_i hlong
    have hsigned : Binary64.signed (decide (n < 0)) (roundDigits count n.toInt.natAbs) =
        roundInteger count n.toInt := by
      rw [roundInteger, Binary64.signed]
      rcases lt_trichotomy n.toInt 0 with hneg | hzero | hpos
      · rw [if_pos (decide_eq_true (Int64.lt_iff_toInt_lt.2 hneg)), Int.sign_eq_neg_one_of_neg hneg,
          neg_one_mul]
      · exact (hlong (.inl (Int64.toInt_inj.1 hzero))).elim
      · have hnot : ¬ n < 0 := fun hneg => lt_asymm hpos (Int64.lt_iff_toInt_lt.1 hneg)
        rw [if_neg (by simpa using hnot), Int.sign_eq_one_of_pos hpos, one_mul]
    show (nearestWord (Binary64.signed (decide (n < 0)) (roundDigits count n.toInt.natAbs))).toInt = _
    rw [hsigned]
    refine toInt_nearestWord ?_
    rw [← natAbs_roundInteger] at hbound
    constructor <;> omega

theorem round (h : Roundable n) (hcount : 1 ≤ count) : Roundable (roundSignificant n count) := by
  unfold Roundable
  rw [h.toInt_round hcount, natAbs_roundInteger]
  exact roundDigits_le hcount h

end Roundable

/-- Rounding to at least one significant digit is correct for all words up to nine times ten to the eighteenth: a
word with no more digits stays, and any other goes to the nearest multiple of the place of the last digit that is
kept, a tie to the one with the even quotient. The opposite of a word is rounded to the opposite, the order of
words is kept, and rounding a second time changes nothing. -/
theorem roundSignificant_nearest {count : ℕ} (hcount : 1 ≤ count) :
    (∀ n : Int64, Roundable n →
      (digitCount n ≤ count → roundSignificant n count = n) ∧
      (count < digitCount n →
        NearestMultiple (10 ^ (digitCount n - count)) n.toInt (roundSignificant n count).toInt) ∧
      roundSignificant (-n) count = -roundSignificant n count ∧
      roundSignificant (roundSignificant n count) count = roundSignificant n count) ∧
    ∀ n m : Int64, Roundable n → Roundable m → n ≤ m →
      roundSignificant n count ≤ roundSignificant m count := by
  refine ⟨fun n hn => ⟨fun hshort => ?_, fun _ => ?_, ?_, ?_⟩, fun n m hn hm hle => ?_⟩
  · rw [← Int64.toInt_inj, hn.toInt_round hcount]
    refine roundInteger_of_dvd ?_
    rw [lastPlace_of_short hshort]
    exact one_dvd _
  · rw [hn.toInt_round hcount]
    exact nearestMultiple_roundInteger count n.toInt
  · obtain ⟨hneg, hroundable⟩ := hn.neg
    rw [← Int64.toInt_inj, hroundable.toInt_round hcount, hneg, (hn.round hcount).neg.1, hn.toInt_round hcount,
      roundInteger_neg]
  · rw [← Int64.toInt_inj, (hn.round hcount).toInt_round hcount, hn.toInt_round hcount,
      roundInteger_idem hcount]
  · rw [Int64.le_iff_toInt_le, hn.toInt_round hcount, hm.toInt_round hcount]
    exact roundInteger_mono hcount (Int64.le_iff_toInt_le.1 hle)

/-- To two digits `-9950` is as near to `-9900` as to `-10000`, which has the even quotient and one more digit. -/
theorem roundSignificant_nearest_carry :
    (Roundable (-9950) ∧ Roundable 99 ∧ (-9950 : Int64) ≤ 99) ∧
    (digitCount 99 = 2 ∧ roundSignificant 99 2 = 99) ∧
    (digitCount (-9950) = 4 ∧ NearestMultiple (10 ^ 2) (-9950) (-10000)) ∧
    (roundSignificant (-9950) 2 = -10000 ∧ roundSignificant (- -9950) 2 = - -10000) ∧
    roundSignificant (-10000) 2 = -10000 ∧
    roundSignificant (-9950) 2 ≤ roundSignificant 99 2 := by
  have hround : Roundable (-9950) ∧ Roundable 99 := by decide
  have hdigits : digitCount (-9950) = 4 ∧ digitCount 99 = 2 := by decide +kernel
  have hcarry : roundSignificant (-9950) 2 = -10000 := by decide +kernel
  obtain ⟨hrounds, hmono⟩ := roundSignificant_nearest (show 1 ≤ 2 by decide)
  obtain ⟨-, hlong, hodd, hidem⟩ := hrounds (-9950) hround.1
  have hshort := (hrounds 99 hround.2).1 (by rw [hdigits.2])
  have hnearest := hlong (by rw [hdigits.1]; decide)
  rw [hcarry] at hodd hidem hnearest
  rw [hdigits.1] at hnearest
  exact ⟨⟨hround.1, hround.2, by decide⟩, ⟨hdigits.2, hshort⟩, ⟨hdigits.1, hnearest⟩, ⟨hcarry, hodd⟩,
    hidem, hmono (-9950) 99 hround.1 hround.2 (by decide)⟩

end Workings

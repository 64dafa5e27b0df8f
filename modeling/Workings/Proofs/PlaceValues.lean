import Workings.Proofs.Numerals

/-!
# Place values

Splitting a number by place value is exact. The coefficient and the exponent of a finite number stand for
the decimal that is printed for it, and no power of ten is left in the coefficient. The components of an
integer are its digits that are not zero, each with its place and the sign of the integer
(`Number.placeValues_exact`).

That the coefficient of a float is a word, and not zero, comes from the fifteen significant digits
to which the float is rounded (`Scientific.ofFraction_digits`).
-/

namespace Workings

/-! ### Significant digits -/

theorem zpow_eq_div_toNat (n : ℤ) : (10 : ℚ) ^ n = 10 ^ n.toNat / 10 ^ (-n).toNat := by
  rcases le_total 0 n with hn | hn
  · obtain ⟨k, rfl⟩ := Int.eq_ofNat_of_zero_le hn
    simp
  · obtain ⟨k, rfl⟩ : ∃ k : ℕ, n = -k := ⟨(-n).toNat, by omega⟩
    simp

namespace Scientific

/-- The first digit of a positive fraction has the place that `leading` says. -/
theorem leading_bounds {num den : ℕ} (hnum : 0 < num) (hden : 0 < den) :
    (10 : ℚ) ^ leading num den ≤ num / den ∧ (num / den : ℚ) < 10 ^ (leading num den + 1) := by
  have hden' : (0 : ℚ) < den := by exact_mod_cast hden
  rw [le_div_iff₀ hden', div_lt_iff₀ hden']
  unfold leading
  split
  · rename_i hle
    obtain ⟨k, hk, hlow, hhigh⟩ := exists_length_toDigits (Nat.div_pos hle hden)
    rw [Nat.le_div_iff_mul_le hden] at hlow
    rw [Nat.div_lt_iff_lt_mul hden] at hhigh
    rw [hk]
    push_cast
    rw [add_sub_cancel_right]
    exact ⟨by exact_mod_cast hlow, by exact_mod_cast hhigh⟩
  · rename_i hlt
    obtain ⟨k, hk, hlow, hhigh⟩ := exists_length_toDigits (Nat.div_pos (not_le.1 hlt).le hnum)
    rw [Nat.le_div_iff_mul_le hnum] at hlow
    rw [Nat.div_lt_iff_lt_mul hnum] at hhigh
    have hnegative (j : ℕ) : (10 : ℚ) ^ (-(j : ℤ)) * den = den / 10 ^ j := by
      rw [zpow_neg, zpow_natCast]
      ring
    dsimp only
    rw [hk, Nat.add_sub_cancel, Nat.pow_eq]
    split
    · rename_i hequal
      have hlead : (1 : ℤ) - (k + 1 : ℕ) = -k := by push_cast; ring
      have hunit : (num : ℚ) ≤ den / 10 ^ k := by
        rw [le_div_iff₀ (by positivity), mul_comm]
        exact_mod_cast hlow
      have hnum' : (0 : ℚ) < num := by exact_mod_cast hnum
      rw [hlead, zpow_add₀ (by norm_num), zpow_one, mul_right_comm, hnegative]
      refine ⟨?_, by linarith⟩
      rw [div_le_iff₀ (by positivity)]
      exact_mod_cast hequal
    · rename_i hmore
      have hplace : -((k + 1 : ℕ) : ℤ) + 1 = -k := by push_cast; ring
      rw [hplace, hnegative, hnegative, div_le_iff₀ (by positivity), lt_div_iff₀ (by positivity), mul_comm]
      exact ⟨by exact_mod_cast hhigh.le, by exact_mod_cast not_le.1 hmore⟩

/-- Rounding to some significant digits leaves as many digits, the first of which is not zero. -/
theorem ofFraction_digits {num den count : ℕ} (hnum : 0 < num) (hden : 0 < den) (hcount : 0 < count) :
    10 ^ (count - 1) ≤ (ofFraction num den count).digits ∧
      (ofFraction num den count).digits < 10 ^ count := by
  obtain ⟨k, rfl⟩ := Nat.exists_eq_succ_of_ne_zero hcount.ne'
  obtain ⟨hlow, hhigh⟩ := leading_bounds hnum hden
  unfold ofFraction
  simp only [Nat.pow_eq, Nat.succ_eq_add_one, Nat.add_sub_cancel]
  generalize hshift : ((k + 1 : ℕ) : ℤ) - 1 - leading num den = shift
  -- the fraction with the point moved is between the bounds
  have hmoved : (num * 10 ^ shift.toNat / (den * 10 ^ (-shift).toNat) : ℚ) = num / den * 10 ^ shift := by
    rw [zpow_eq_div_toNat, mul_div_mul_comm]
  have hplace (j : ℤ) : (10 : ℚ) ^ (leading num den + j) * 10 ^ shift = 10 ^ (k + j) := by
    rw [← zpow_add₀ (by norm_num)]
    congr 1
    push_cast at hshift
    omega
  have hpos : (0 : ℚ) < 10 ^ shift := by positivity
  have hlow' : (10 : ℚ) ^ k ≤ num * 10 ^ shift.toNat / (den * 10 ^ (-shift).toNat) := by
    have hunit := hplace 0
    rw [add_zero, add_zero, zpow_natCast] at hunit
    rw [hmoved, ← hunit]
    exact mul_le_mul_of_nonneg_right hlow hpos.le
  have hhigh' : (num * 10 ^ shift.toNat / (den * 10 ^ (-shift).toNat) : ℚ) < 10 ^ (k + 1) := by
    rw [hmoved, ← zpow_natCast, Nat.cast_succ, ← hplace 1]
    exact mul_lt_mul_of_pos_right hhigh hpos
  have hden' : 0 < den * 10 ^ (-shift).toNat := Nat.mul_pos hden (by positivity)
  have hdenq : (0 : ℚ) < den * 10 ^ (-shift).toNat := by exact_mod_cast hden'
  rw [le_div_iff₀ hdenq] at hlow'
  rw [div_lt_iff₀ hdenq] at hhigh'
  have hround := le_divRound hden' (show 10 ^ k * _ ≤ num * 10 ^ shift.toNat by exact_mod_cast hlow')
  have hround' := divRound_le hden' (show num * 10 ^ shift.toNat ≤ 10 ^ (k + 1) * _ by exact_mod_cast hhigh'.le)
  split
  · exact ⟨le_rfl, Nat.pow_lt_pow_right (by decide) (Nat.lt_succ_self k)⟩
  · rename_i hne
    exact ⟨hround, lt_of_le_of_ne hround' hne⟩

/-- The number written with the significant digits. -/
def coefficient (s : Scientific) : ℕ :=
  Nat.ofDigitChars 10 s.significant 0

theorem significant_ne_nil {s : Scientific} (h : 0 < s.coefficient) : s.significant ≠ [] := by
  intro hnil
  rw [coefficient, hnil] at h
  exact Nat.lt_irrefl 0 h

/-- The significant digits are those of the number without a power of ten. -/
theorem coefficient_spec {s : Scientific} (h : 0 < s.digits) :
    0 < s.coefficient ∧ s.coefficient ≤ s.digits ∧ ¬ 10 ∣ s.coefficient := by
  obtain ⟨count, hdigits, -⟩ := dropTrailingZeros_append (Nat.toDigits 10 s.digits)
  have hvalue : s.digits = 10 ^ count * s.coefficient := by
    rw [coefficient, significant, ← Nat.ofDigitChars_replicate_zero, ← Nat.ofDigitChars_append, ← hdigits,
      Nat.ofDigitChars_ten_toDigits]
  have hpos : 0 < s.coefficient := Nat.pos_of_ne_zero fun hzero => by
    rw [hzero, Nat.mul_zero] at hvalue
    omega
  refine ⟨hpos, ?_, not_dvd_dropTrailingZeros (Decimal.isDigit_toDigits _) (significant_ne_nil hpos)⟩
  rw [hvalue]
  exact Nat.le_mul_of_pos_left _ (by positivity)

end Scientific

/-! ### Decimals that are laid out -/

theorem dropTrailingZeros_append_zeros (digits : List Char) (count : ℕ) :
    dropTrailingZeros (digits ++ zeros count) = dropTrailingZeros digits := by
  unfold dropTrailingZeros zeros
  rw [List.reverse_append, List.reverse_replicate, List.dropWhile_append_of_pos]
  intro c hc
  exact beq_iff_eq.2 (List.eq_of_mem_replicate hc)

theorem dropTrailingZeros_dropTrailingZeros (digits : List Char) :
    dropTrailingZeros (dropTrailingZeros digits) = dropTrailingZeros digits := by
  unfold dropTrailingZeros
  rw [List.reverse_reverse, List.dropWhile_idempotent]

theorem ofDigitChars_zeros_append (count : ℕ) (digits : List Char) :
    Nat.ofDigitChars 10 (zeros count ++ digits) 0 = Nat.ofDigitChars 10 digits 0 := by
  rw [zeros, Nat.ofDigitChars_append, Nat.ofDigitChars_replicate_zero, Nat.mul_zero]

namespace Scientific

/-- The sign does not change the digits. -/
theorem decimal_congr (s : Scientific) (negative negative' : Bool) :
    (s.decimal negative).whole = (s.decimal negative').whole ∧
      (s.decimal negative).fraction = (s.decimal negative').fraction := by
  unfold decimal
  extract_lets digits point
  split
  · exact ⟨rfl, rfl⟩
  · split <;> exact ⟨rfl, rfl⟩

/-- Scaling digits that are laid out around a point finds their number again. -/
theorem scaleDecimal_decimal {s : Scientific} (h : 0 < s.digits) (negative : Bool) :
    ∃ e : ℤ, Number.scaleDecimal (s.decimal negative) = (.ofInt s.coefficient, e) ∧
      (s.coefficient : ℚ) * 10 ^ e =
        (s.decimal negative).scaled / 10 ^ (s.decimal negative).fraction.length := by
  have hne := significant_ne_nil (coefficient_spec h).1
  -- digits behind the point are read together with those in front of it
  have hpoint {d : Decimal} (hfraction : d.fraction ≠ []) (hscaled : d.scaled = s.coefficient) :
      ∃ e : ℤ, Number.scaleDecimal d = (.ofInt s.coefficient, e) ∧
        (s.coefficient : ℚ) * 10 ^ e = d.scaled / 10 ^ d.fraction.length := by
    refine ⟨-(d.fraction.length : ℤ), ?_, ?_⟩
    · rw [Number.scaleDecimal, if_neg (by simpa using hfraction), Number.ofDigits]
      exact congrArg (fun n : ℕ => (Number.ofInt n, -(d.fraction.length : ℤ))) hscaled
    · rw [hscaled, zpow_neg, zpow_natCast, div_eq_mul_inv]
  unfold decimal
  extract_lets digits point
  split
  · refine hpoint (by simp [digits, hne]) ?_
    show Nat.ofDigitChars 10 ('0' :: (zeros _ ++ digits)) 0 = _
    rw [Nat.ofDigitChars_cons]
    exact ofDigitChars_zeros_append _ _
  · split
    · generalize point.toNat - digits.length = count
      have hdrop : dropTrailingZeros (digits ++ zeros count) = digits := by
        rw [dropTrailingZeros_append_zeros]
        exact dropTrailingZeros_dropTrailingZeros _
      refine ⟨count, ?_, ?_⟩
      · rw [Number.scaleDecimal, if_pos (List.isEmpty_nil), hdrop]
        refine Prod.ext rfl ?_
        simp [zeros]
      · have hscaled : Nat.ofDigitChars 10 (digits ++ zeros count ++ []) 0 = 10 ^ count * s.coefficient := by
          rw [List.append_nil, Nat.ofDigitChars_append, zeros, Nat.ofDigitChars_replicate_zero]
          rfl
        rw [Decimal.scaled, hscaled]
        simp [mul_comm]
    · rename_i hlength
      refine hpoint (by simpa using hlength) ?_
      show Nat.ofDigitChars 10 (digits.take _ ++ digits.drop _) 0 = _
      rw [List.take_append_drop]
      rfl

end Scientific

/-! ### Coefficients and exponents -/

theorem Decimal.value_ofInt (n : ℤ) : (Decimal.ofInt n).value = n := by
  have hvalue : ((Decimal.ofInt n).scaledTo 0 : ℚ) = (Decimal.ofInt n).value * 10 ^ 0 :=
    Decimal.cast_scaledTo le_rfl
  rw [Decimal.scaledTo_ofInt] at hvalue
  simpa using hvalue.symm

namespace Number

theorem isZero_float_iff (x : Float) :
    (Number.float x).isZero = true ↔ ∃ negative e, Binary64.ofFloat x = .finite negative 0 e := by
  refine (float_beq_iff x 0.0).trans ⟨fun h => ?_, fun ⟨negative, e, h⟩ => ?_⟩
  · have hunpack : ∃ s, x.toModel.unpack = .zero s := by
      rcases h with ⟨rfl, -⟩ | ⟨s, -, hs, -⟩
      · exact ⟨_, unpack_float_zero⟩
      · exact ⟨s, hs⟩
    obtain ⟨s, hs⟩ := hunpack
    exact ⟨_, _, by rw [Binary64.ofFloat_eq, hs]; rfl⟩
  · obtain ⟨s, hs⟩ := Binary64.unpack_zero h
    exact .inr ⟨s, _, hs, unpack_float_zero⟩

/-- A float that is not zero is printed with at most fifteen significant digits, which are those of its
magnitude. -/
theorem exists_scientific {x : Float} (hfinite : (Number.float x).isFinite = true)
    (hzero : (Number.float x).isZero = false) :
    ∃ s : Scientific, 0 < s.digits ∧ s.digits < 10 ^ 15 ∧
      (Number.float x).row = s.decimal (Number.float x).isNegative ∧
      (Number.float x).abs.decimal? = some (s.decimal false) := by
  have hrow := (printed_of_isFinite hfinite).1
  have hnegative := negative_row hfinite
  cases hx : Binary64.ofFloat x with
  | nan | infinite _ =>
    simp only [decimal?, hx] at hrow
    cases hrow
  | finite negative m e =>
    have hm : m ≠ 0 := by
      rintro rfl
      rw [(isZero_float_iff x).2 ⟨_, _, hx⟩] at hzero
      cases hzero
    have hdecimal (sign : Bool) : Binary64.decimal sign m e significantDigits =
        (Scientific.ofFraction (Binary64.fraction m e).1 (Binary64.fraction m e).2 15).decimal sign := by
      rw [Binary64.decimal, if_neg hm]
      rfl
    have hnum : 0 < (Binary64.fraction m e).1 :=
      Nat.mul_pos (Nat.pos_of_ne_zero hm) (Nat.two_pow_pos _)
    have hden : 0 < (Binary64.fraction m e).2 := Nat.two_pow_pos _
    obtain ⟨hlow, hhigh⟩ := Scientific.ofFraction_digits hnum hden (by decide : 0 < 15)
    simp only [decimal?, hx, hdecimal, Option.some.injEq] at hrow
    rw [← hrow, Scientific.negative_decimal] at hnegative
    refine ⟨_, lt_of_lt_of_le (by decide) hlow, hhigh, by rw [← hrow, hnegative], ?_⟩
    unfold abs
    rw [← hnegative]
    cases negative with
    | false => simp only [decimal?, hx, hdecimal, Bool.false_eq_true, if_false]
    | true =>
      show (Number.float (-x)).decimal? = _
      simp only [decimal?, Binary64.ofFloat_neg hx, hdecimal, Bool.not_true]

/-- The coefficient and the exponent of an integer. -/
theorem Whole.scale_exact {n : Number} (hn : n.Whole) :
    ∃ (c : Int64) (e : ℤ), n.scale = (.int c, e) ∧ (c.toInt : ℚ) * 10 ^ e = n.row.value ∧
      (n.isZero = false → ¬ (10 : ℤ) ∣ c.toInt) := by
  obtain ⟨k, he, hwhole, hvalue, -⟩ := hn.scale_eq
  obtain ⟨c, hc⟩ := hwhole.exists_int
  refine ⟨c, k, Prod.ext hc he, ?_, fun hzero => ?_⟩
  · rw [ColumnSum.row_of_whole hn, Decimal.value_ofInt, ← hvalue, hc]
    push_cast
    rfl
  · have hne : n.toInt ≠ 0 := fun h => by
      rw [hn.isZero_iff.2 h] at hzero
      cases hzero
    have hreduced := hn.not_dvd_scale hne
    rwa [hc] at hreduced

/-- The coefficient and the exponent of a float that is not zero. -/
theorem scale_float_exact {x : Float} (hfinite : (Number.float x).isFinite = true)
    (hzero : (Number.float x).isZero = false) :
    ∃ (c : Int64) (e : ℤ), (Number.float x).scale = (.int c, e) ∧
      (c.toInt : ℚ) * 10 ^ e = (Number.float x).row.value ∧ ¬ (10 : ℤ) ∣ c.toInt := by
  obtain ⟨s, hpos, hsmall, hrow, habs⟩ := exists_scientific hfinite hzero
  obtain ⟨hcoefficient, hle, hreduced⟩ := Scientific.coefficient_spec hpos
  obtain ⟨e, hscale, hvalue⟩ := Scientific.scaleDecimal_decimal hpos false
  have hword := whole_ofInt (n := s.coefficient) (by omega)
  rw [ofInt_eq ⟨by omega, by omega⟩] at hscale
  generalize Int64.ofInt s.coefficient = c at hscale hword
  obtain ⟨hwhole, htoInt⟩ := hword
  change c.toInt = s.coefficient at htoInt
  obtain ⟨hwholeDigits, hfraction⟩ := s.decimal_congr (Number.float x).isNegative false
  have hprinted : (Number.float x).row.value =
      (if (Number.float x).isNegative then -1 else 1) * ((s.coefficient : ℚ) * 10 ^ e) := by
    rw [hvalue, hrow, Decimal.value, Scientific.negative_decimal, Decimal.scaled, hwholeDigits, hfraction]
    unfold Binary64.signed Decimal.scaled
    cases (Number.float x).isNegative <;> simp [neg_div]
  rw [hprinted, scale, if_neg (by rw [hzero]; exact Bool.false_ne_true), habs]
  dsimp only
  rw [hscale]
  cases (Number.float x).isNegative with
  | false =>
    refine ⟨c, e, rfl, ?_, ?_⟩
    · rw [htoInt]
      simp
    · rw [htoInt]
      omega
  | true =>
    have hneg : (-c).toInt = -s.coefficient := by rw [toInt_neg hwhole, htoInt]
    refine ⟨-c, e, Prod.ext (neg_int hwhole) rfl, ?_, ?_⟩
    · rw [hneg]
      simp
    · rw [hneg]
      omega

/-- The coefficient and the exponent of a finite number with an opposite stand for its decimal. -/
theorem scale_exact {a : Number} (hfinite : a.isFinite = true) (hmin : a ≠ .int Int64.minValue) :
    ∃ (c : Int64) (e : ℤ), a.scale = (.int c, e) ∧ (c.toInt : ℚ) * 10 ^ e = a.row.value ∧
      (a.isZero = false → ¬ (10 : ℤ) ∣ c.toInt) := by
  cases a with
  | int n => exact Whole.scale_exact fun h => hmin (congrArg Number.int h)
  | float x =>
    cases hzero : (Number.float x).isZero with
    | false =>
      obtain ⟨c, e, hscale, hvalue, hreduced⟩ := scale_float_exact hfinite hzero
      exact ⟨c, e, hscale, hvalue, fun _ => hreduced⟩
    | true =>
      obtain ⟨negative, e, hx⟩ := (isZero_float_iff x).1 hzero
      have hrow := (printed_of_isFinite hfinite).1
      simp only [decimal?, hx, Binary64.decimal, if_true, Option.some.injEq] at hrow
      have hdigit : Nat.ofDigitChars 10 ['0'] 0 = 0 := by decide
      refine ⟨0, 0, by rw [scale, if_pos hzero]; rfl, ?_, fun h => absurd h (by decide)⟩
      rw [← hrow]
      simp [Decimal.value, Decimal.scaled, Binary64.signed, hdigit]

/-! ### Components -/

/-- The digits that are not zero, each with its place, from the highest place down. -/
structure PlacedDigits (n : ℕ) (places : List (ℕ × ℕ)) : Prop where
  descending : places.Pairwise fun p q => q.2 < p.2
  mem_iff : ∀ k j, (k, j) ∈ places ↔ k ≠ 0 ∧ n / 10 ^ j % 10 = k

/-- The digits other than `'0'` with their places. -/
def placesOf : List Char → List (ℕ × ℕ)
  | [] => []
  | c :: rest => if c = '0' then placesOf rest else (digitValue c, rest.length) :: placesOf rest

theorem snd_lt_of_mem_placesOf {digits : List Char} {p : ℕ × ℕ} (h : p ∈ placesOf digits) :
    p.2 < digits.length := by
  induction digits with
  | nil => cases h
  | cons c rest ih =>
    rw [List.length_cons]
    unfold placesOf at h
    split at h
    · exact (ih h).trans (Nat.lt_succ_self _)
    · rcases List.mem_cons.1 h with rfl | h
      · exact Nat.lt_succ_self _
      · exact (ih h).trans (Nat.lt_succ_self _)

theorem digitValue_le {c : Char} (hc : c.isDigit = true) : digitValue c ≤ 9 := by
  by_cases hzero : c = '0'
  · rw [hzero]
    decide
  · exact (digitValue_between hc hzero).2

theorem ofDigitChars_lt {digits : List Char} (h : ∀ c ∈ digits, c.isDigit = true) :
    Nat.ofDigitChars 10 digits 0 < 10 ^ digits.length := by
  induction digits with
  | nil => decide
  | cons c rest ih =>
    obtain ⟨hc, hrest⟩ := List.forall_mem_cons.1 h
    have hbound : 10 ^ rest.length * digitValue c ≤ 10 ^ rest.length * 9 :=
      Nat.mul_le_mul_left _ (digitValue_le hc)
    have := ih hrest
    rw [ofDigitChars_cons_eq, List.length_cons, pow_succ]
    omega

/-- One more digit in front changes only the digit at its place. -/
theorem digit_cons {c : Char} {rest : List Char} (hc : c.isDigit = true)
    (hrest : ∀ c ∈ rest, c.isDigit = true) (j : ℕ) :
    Nat.ofDigitChars 10 (c :: rest) 0 / 10 ^ j % 10 =
      if j = rest.length then digitValue c else Nat.ofDigitChars 10 rest 0 / 10 ^ j % 10 := by
  have hdigit := digitValue_le hc
  have hlt := ofDigitChars_lt hrest
  rcases lt_trichotomy j rest.length with hj | rfl | hj
  · obtain ⟨d, hd⟩ := Nat.exists_eq_add_of_lt hj
    have hsplit : 10 ^ rest.length * digitValue c = 10 ^ j * (10 * (10 ^ d * digitValue c)) := by
      rw [hd]
      ring
    rw [if_neg hj.ne, ofDigitChars_cons_eq, hsplit, Nat.mul_add_div (by positivity), Nat.mul_add_mod]
  · rw [if_pos rfl, ofDigitChars_cons_eq, Nat.mul_add_div (by positivity), Nat.div_eq_of_lt hlt]
    omega
  · have hmore : ∀ c' ∈ c :: rest, c'.isDigit = true := List.forall_mem_cons.2 ⟨hc, hrest⟩
    have hle : 10 ^ (c :: rest).length ≤ 10 ^ j := Nat.pow_le_pow_right (by decide) hj
    have hle' : 10 ^ rest.length ≤ 10 ^ j := Nat.pow_le_pow_right (by decide) hj.le
    rw [if_neg hj.ne', Nat.div_eq_of_lt ((ofDigitChars_lt hmore).trans_le hle),
      Nat.div_eq_of_lt (hlt.trans_le hle')]

theorem placedDigits_placesOf {digits : List Char} (h : ∀ c ∈ digits, c.isDigit = true) :
    PlacedDigits (Nat.ofDigitChars 10 digits 0) (placesOf digits) := by
  induction digits with
  | nil =>
    refine ⟨.nil, fun k j => ⟨fun hmem => (nomatch hmem), fun ⟨hk, hdigit⟩ => (hk ?_).elim⟩⟩
    rw [← hdigit, Nat.ofDigitChars_nil, Nat.zero_div]
  | cons c rest ih =>
    obtain ⟨hc, hrest⟩ := List.forall_mem_cons.1 h
    obtain ⟨hdescending, hmem⟩ := ih hrest
    have hlast (k : ℕ) : (k, rest.length) ∉ placesOf rest := fun hold =>
      Nat.lt_irrefl _ (snd_lt_of_mem_placesOf hold)
    by_cases hzero : c = '0'
    · rw [placesOf, if_pos hzero]
      refine ⟨hdescending, fun k j => ?_⟩
      rw [digit_cons hc hrest]
      split
      · rename_i hj
        rw [hj, hzero, show digitValue '0' = 0 by decide]
        exact ⟨fun hold => (hlast k hold).elim, fun ⟨hk, hdigit⟩ => (hk hdigit.symm).elim⟩
      · exact hmem k j
    · obtain ⟨hpos, -⟩ := digitValue_between hc hzero
      rw [placesOf, if_neg hzero]
      refine ⟨List.pairwise_cons.2 ⟨fun p hp => snd_lt_of_mem_placesOf hp, hdescending⟩, fun k j => ?_⟩
      rw [List.mem_cons, Prod.mk.injEq, digit_cons hc hrest]
      split
      · rename_i hj
        rw [hj]
        have hold := hlast k
        constructor
        · rintro (⟨rfl, -⟩ | hmem)
          · exact ⟨by omega, rfl⟩
          · exact (hold hmem).elim
        · rintro ⟨-, rfl⟩
          exact .inl ⟨rfl, rfl⟩
      · rename_i hj
        rw [← hmem]
        exact ⟨fun h => h.resolve_left fun heq => hj heq.2, .inr⟩

/-- The components of digits are integers, one for each digit that is not zero. -/
theorem wholeComponents_placed {sign : Number} (hsign : sign.IsSign) {digits : List Char}
    (h : ∀ c ∈ digits, c.isDigit = true) (hbound : Nat.ofDigitChars 10 digits 0 < 2 ^ 63) :
    ∃ words : List Int64, wholeComponents sign digits = words.map .int ∧
      words.map Int64.toInt = (placesOf digits).map fun p => sign.toInt * (p.1 * 10 ^ p.2) := by
  induction digits with
  | nil => exact ⟨[], rfl, rfl⟩
  | cons c rest ih =>
    obtain ⟨hc, hrest⟩ := List.forall_mem_cons.1 h
    rw [ofDigitChars_cons_eq] at hbound
    obtain ⟨words, hcomponents, hvalues⟩ := ih hrest (by omega)
    unfold wholeComponents placesOf
    split
    · exact ⟨words, hcomponents, hvalues⟩
    · rename_i hne
      obtain ⟨hlow, -⟩ := digitValue_between hc hne
      obtain ⟨hwhole, hvalue⟩ := digitComponent_eq hsign rest.length hlow (by omega)
      obtain ⟨word, hword⟩ := hwhole.exists_int
      rw [hword] at hvalue
      refine ⟨word :: words, by rw [hword, hcomponents]; rfl, ?_⟩
      have hfirst : word.toInt = sign.toInt * (digitValue c * 10 ^ rest.length) := by
        refine hvalue.trans ?_
        push_cast
        ring
      rw [List.map_cons, List.map_cons, hvalues, hfirst]

/-- The coefficient and the exponent of a number stand for the decimal that is printed for it. There is no
power of ten in the coefficient, and both are zero if the number is. -/
def ScalesExactly (a : Number) : Prop :=
  ∃ (d : Decimal) (c : Int64) (e : ℤ), a.decimal? = some d ∧ a.text = String.ofList d.chars ∧
    a.scale = (.int c, e) ∧ (c.toInt : ℚ) * 10 ^ e = d.value ∧
    if a.isZero then c = 0 ∧ e = 0 else ¬ (10 : ℤ) ∣ c.toInt

/-- The components of an integer are words that add up to it: its digits that are not zero, from the highest
place down, each with its place and the sign of the integer. -/
def SplitsExactly (n : Int64) : Prop :=
  ∃ (places : List (ℕ × ℕ)) (words : List Int64), PlacedDigits n.toInt.natAbs places ∧
    (∀ p ∈ places, 1 ≤ p.1 ∧ p.1 ≤ 9) ∧ (Number.int n).components = words.map .int ∧
    words.map Int64.toInt = places.map (fun p => n.toInt.sign * (p.1 * 10 ^ p.2)) ∧
    (words.map Int64.toInt).sum = n.toInt

theorem PlacedDigits.between {n : ℕ} {places : List (ℕ × ℕ)} (h : PlacedDigits n places) :
    ∀ p ∈ places, 1 ≤ p.1 ∧ p.1 ≤ 9 := by
  intro p hp
  obtain ⟨hne, hdigit⟩ := (h.mem_iff p.1 p.2).1 hp
  omega

theorem splitsExactly_of_ne {n : Int64} (hzero : n ≠ 0) (hmin : n ≠ Int64.minValue) : SplitsExactly n := by
  have hn : (Number.int n).Whole := hmin
  have hne : n.toInt ≠ 0 := fun h => hzero (Int64.toInt_inj.1 h)
  obtain ⟨sign, hsign, hvalue, hcomponents⟩ := hn.components_eq
  change n.toInt = n.toInt.natAbs * sign.toInt at hvalue
  have hdigits : Nat.ofDigitChars 10 (Nat.toDigits 10 n.toInt.natAbs) 0 = n.toInt.natAbs :=
    Nat.ofDigitChars_ten_toDigits
  have hbound : Nat.ofDigitChars 10 (Nat.toDigits 10 n.toInt.natAbs) 0 < 2 ^ 63 := by
    rw [hdigits]
    exact hn.natAbs_lt
  have hplaced := placedDigits_placesOf (Decimal.isDigit_toDigits n.toInt.natAbs)
  obtain ⟨-, hsum⟩ := wholeComponents_eq hsign (Decimal.isDigit_toDigits n.toInt.natAbs) hbound
  obtain ⟨words, hwords, hvalues⟩ :=
    wholeComponents_placed hsign (Decimal.isDigit_toDigits n.toInt.natAbs) hbound
  rw [hdigits] at hplaced hsum
  rw [← hvalue, hwords, List.map_map] at hsum
  change (words.map Int64.toInt).sum = n.toInt at hsum
  have hsame : sign.toInt = n.toInt.sign := by
    rcases hsign.unit with hunit | hunit <;> rw [hunit] at hvalue ⊢
    · exact (Int.sign_eq_one_of_pos (by omega)).symm
    · exact (Int.sign_eq_neg_one_of_neg (by omega)).symm
  have hsome : words.map Number.int ≠ [] := by
    intro hnil
    rw [List.map_eq_nil_iff.1 hnil] at hsum
    exact hne hsum.symm
  refine ⟨_, words, hplaced, hplaced.between, ?_, by rw [hvalues, hsame], hsum⟩
  rw [hcomponents]
  simp only [toInt, hwords]
  rw [if_neg (by simpa using hsome)]

/-- Splitting by place value is exact: the coefficient and the exponent of every finite number, and the
components of every integer that is not zero, the least word aside. -/
theorem placeValues_exact :
    (∀ a : Number, a.isFinite = true → a ≠ .int Int64.minValue → a.ScalesExactly) ∧
      ∀ n : Int64, n ≠ 0 → n ≠ Int64.minValue → SplitsExactly n := by
  refine ⟨fun a hfinite hmin => ?_, fun n => splitsExactly_of_ne⟩
  obtain ⟨c, e, hscale, hvalue, hreduced⟩ := scale_exact hfinite hmin
  refine ⟨a.row, c, e, (printed_of_isFinite hfinite).1, text_of_isFinite hfinite, hscale, hvalue, ?_⟩
  split
  · rename_i hzero
    rw [scale, if_pos hzero] at hscale
    obtain ⟨hc, he⟩ := Prod.mk.inj hscale
    exact ⟨Number.int.inj hc.symm, he.symm⟩
  · rename_i hzero
    exact hreduced (by simpa using hzero)

/-- `-0.00405` and `-1002` are split. -/
theorem placeValues_exact_negative :
    ((Number.float (-0.00405)).isFinite = true ∧ Number.float (-0.00405) ≠ .int Int64.minValue ∧
      (Number.float (-0.00405)).ScalesExactly) ∧
    ((-1002 : Int64) ≠ 0 ∧ (-1002 : Int64) ≠ Int64.minValue ∧ SplitsExactly (-1002)) := by
  have hfinite : (Number.float (-0.00405)).isFinite = true := by decide +kernel
  have hfloat : Number.float (-0.00405) ≠ .int Int64.minValue := fun h => nomatch h
  have hzero : (-1002 : Int64) ≠ 0 := by decide
  have hmin : (-1002 : Int64) ≠ Int64.minValue := by decide
  exact ⟨⟨hfinite, hfloat, placeValues_exact.1 _ hfinite hfloat⟩,
    ⟨hzero, hmin, placeValues_exact.2 _ hzero hmin⟩⟩

end Number

end Workings

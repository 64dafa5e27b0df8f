import Workings.Proofs.Columns
import Workings.Proofs.Words

/-!
# Integers and their digits

Splitting an integer by its decimal digits is exact: its components add up to it
(`Number.Whole.sum_components`), and its coefficient and exponent multiply to it
(`Number.Whole.scale_eq`). So is adding integers in columns (`ColumnSum.total?_of_whole`).
-/

namespace Workings

/-- The number of digits bounds a number from both sides. -/
theorem exists_length_toDigits {n : ℕ} (hn : 0 < n) :
    ∃ k, (Nat.toDigits 10 n).length = k + 1 ∧ 10 ^ k ≤ n ∧ n < 10 ^ (k + 1) := by
  have hcount : 0 < (Nat.toDigits 10 n).length := Nat.length_toDigits_pos
  obtain ⟨k, hk⟩ := Nat.exists_eq_succ_of_ne_zero hcount.ne'
  refine ⟨k, hk, ?_, ?_⟩
  · by_contra hlt
    rcases Nat.eq_zero_or_pos k with rfl | hpos
    · omega
    · have hle := (Nat.length_toDigits_le_iff (by decide) hpos).2 (not_le.1 hlt)
      omega
  · exact (Nat.length_toDigits_le_iff (by decide) (Nat.succ_pos k)).1 hk.le

/-! ### Rows of a column addition -/

namespace Decimal

theorem isDigit_toDigits (n : Nat) : ∀ c ∈ Nat.toDigits 10 n, c.isDigit = true :=
  fun _ hc => Nat.isDigit_of_mem_toDigits (by decide) (by decide) hc

theorem digital_ofInt (n : Int) : (ofInt n).Digital where
  whole := isDigit_toDigits n.natAbs
  fraction _ hc := nomatch hc

theorem scaledTo_ofInt (n : Int) (places : Nat) : (ofInt n).scaledTo places = n * 10 ^ places := by
  have hscaled : (ofInt n).scaled = n.natAbs := by
    show Nat.ofDigitChars 10 (Nat.toDigits 10 n.natAbs ++ []) 0 = _
    rw [List.append_nil, Nat.ofDigitChars_ten_toDigits]
  unfold scaledTo
  rw [hscaled]
  show Binary64.signed (decide (n < 0)) (n.natAbs * 10 ^ places) = _
  have hsigned (k : Nat) : Binary64.signed (decide (n < 0)) (n.natAbs * k) = n * k := by
    unfold Binary64.signed
    split
    · rename_i hneg
      have : n < 0 := of_decide_eq_true hneg
      rw [Int.natCast_mul, ← Int.neg_mul]
      rw [show -(n.natAbs : Int) = n by omega]
    · rename_i hneg
      have : ¬ n < 0 := by simpa using hneg
      rw [Int.natCast_mul]
      rw [show (n.natAbs : Int) = n by omega]
  rw [hsigned]
  simp

end Decimal

namespace ColumnSum

variable {components : List Number}

theorem row_of_whole {c : Number} (h : c.Whole) : c.row = Decimal.ofInt c.toInt := by
  cases c with
  | int n => rfl
  | float x => exact h.elim

/-- Integers have no digits after the point. -/
theorem right_of_whole (h : ∀ c ∈ components, c.Whole) : (of components).right = 0 := by
  have hfraction : (components.map Number.row).map (·.fraction.length) = components.map fun _ => 0 := by
    rw [List.map_map]
    exact List.map_congr_left fun c hc => congrArg (·.fraction.length) (row_of_whole (h c hc))
  obtain ⟨hmem, -⟩ := foldl_max_spec ((components.map Number.row).map (·.fraction.length))
  rw [hfraction] at hmem
  show ((components.map Number.row).map (·.fraction.length)).foldl max 0 = 0
  rw [hfraction]
  rcases List.mem_cons.1 hmem with hzero | hmem
  · exact hzero
  · obtain ⟨c, -, hzero⟩ := List.mem_map.1 hmem
    exact hzero.symm

theorem sum_scaledTo_whole (h : ∀ c ∈ components, c.Whole) :
    ((components.map Number.row).map (Decimal.scaledTo · (of components).right)).sum =
      (components.map Number.toInt).sum := by
  rw [right_of_whole h, List.map_map]
  refine congrArg List.sum (List.map_congr_left fun c hc => ?_)
  show c.row.scaledTo 0 = _
  rw [row_of_whole (h c hc), Decimal.scaledTo_ofInt]
  simp

theorem printed_of_whole (h : ∀ c ∈ components, c.Whole) : ∀ c ∈ components, c.row.Printed :=
  fun c hc => row_of_whole (h c hc) ▸ ⟨Decimal.digital_ofInt _, Nat.toDigits_ne_nil⟩

/-- Whole numbers have at most 19 digits. -/
theorem left_le (hne : components ≠ []) (h : ∀ c ∈ components, c.Whole) :
    (of components).left ≤ 19 := by
  have hleft : (of components).left =
      ((components.map Number.row).map (·.whole.length)).foldl max 0 :=
    if_neg (by simpa using hne)
  rw [hleft]
  rcases List.mem_cons.1 (foldl_max_spec _).1 with hzero | hmem
  · rw [hzero]
    exact Nat.zero_le _
  · obtain ⟨row, hrow, heq⟩ := List.mem_map.1 hmem
    obtain ⟨c, hc, rfl⟩ := List.mem_map.1 hrow
    obtain ⟨n, rfl⟩ := (h c hc).exists_int
    rw [← heq]
    refine (Nat.length_toDigits_le_iff (by decide) (by decide)).2 ?_
    exact (h _ hc).natAbs_lt.trans (by decide)

/-- Adding integers in columns gives their sum if it is a word. -/
theorem total?_of_whole (hne : components ≠ []) (h : ∀ c ∈ components, c.Whole)
    (hsum : InRange (components.map Number.toInt).sum) :
    (of components).total? = some (components.map Number.toInt).sum := by
  have hprinted := printed_of_whole h
  have hvalue := written_add_carry hne fun c hc => (hprinted c hc).digital
  rw [sum_scaledTo_whole h] at hvalue
  have hwide : (of components).Wide := by
    obtain ⟨hlow, hhigh⟩ := written_between hne
    have hplace : (10 : Int) ^ ((of components).left + (of components).right) ≤ 10 ^ 19 := by
      rw [right_of_whole h, Nat.add_zero]
      exact pow_le_pow_right₀ (by decide) (left_le hne h)
    obtain ⟨hsumLow, hsumHigh⟩ := hsum
    refine ⟨⟨?_, ?_⟩, ⟨?_, ?_⟩, ⟨?_, ?_⟩⟩ <;> omega
  rw [total?_of_wide hne hprinted hwide, hvalue]

end ColumnSum

/-! ### Components -/

theorem powerOfTen_eq {k : Nat} (h : k ≤ 18) :
    (powerOfTen k).Whole ∧ (powerOfTen k).toInt = 10 ^ k := by
  have hbound : 10 ^ k ≤ 10 ^ 18 := Nat.pow_le_pow_right (by decide) h
  have hpower : powerOfTen k = .int (Int64.ofInt (10 ^ k : Nat)) := by
    unfold powerOfTen
    rw [if_pos (by omega)]
    rfl
  rw [hpower]
  have := Number.whole_ofInt (n := (10 ^ k : Nat)) (by rw [Int.natAbs_natCast]; omega)
  refine ⟨this.1, this.2.trans ?_⟩
  simp

theorem le_eighteen {k : Nat} (h : 10 ^ k < 2 ^ 63) : k ≤ 18 := by
  by_contra hk
  have : 10 ^ 19 ≤ 10 ^ k := Nat.pow_le_pow_right (by decide) (by omega)
  omega

namespace Number

/-- A sign in front of a number. -/
structure IsSign (sign : Number) : Prop where
  whole : sign.Whole
  unit : sign.toInt = 1 ∨ sign.toInt = -1

theorem isSign_of (negative : Bool) : (if negative then -1 else 1 : Number).IsSign := by
  cases negative with
  | false => exact ⟨by decide, .inl (by decide)⟩
  | true => exact ⟨by decide, .inr (by decide)⟩

theorem digitValue_between {c : Char} (hc : c.isDigit = true) (hne : c ≠ '0') :
    1 ≤ digitValue c ∧ digitValue c ≤ 9 := by
  obtain ⟨hlow, hhigh⟩ : 48 ≤ c.toNat ∧ c.toNat ≤ 57 := by
    simpa [Char.isDigit, UInt32.le_iff_toNat_le] using hc
  have hnot : c.toNat ≠ 48 := fun h => hne (Char.toNat_inj.1 h)
  show 1 ≤ c.toNat - 48 ∧ c.toNat - 48 ≤ 9
  omega

/-- The component of one digit is exact. -/
theorem digitComponent_eq {sign : Number} (hsign : sign.IsSign) {digit : Nat} (place : Nat)
    (hdigit : 1 ≤ digit) (hbound : 10 ^ place * digit < 2 ^ 63) :
    (Number.int (Int64.ofNat digit) * powerOfTen place * sign).Whole ∧
      (Number.int (Int64.ofNat digit) * powerOfTen place * sign).toInt =
        (10 ^ place * digit : Nat) * sign.toInt := by
  have hplace : place ≤ 18 := by
    refine le_eighteen (lt_of_le_of_lt ?_ hbound)
    exact Nat.le_mul_of_pos_right _ hdigit
  have hone : 1 ≤ 10 ^ place := Nat.one_le_pow _ _ (by decide)
  have hsmall : digit < 2 ^ 63 := lt_of_le_of_lt (Nat.le_mul_of_pos_left _ hone) hbound
  obtain ⟨hdigitWhole, hdigitValue⟩ := whole_ofInt (n := digit) (by omega)
  obtain ⟨hpowerWhole, hpowerValue⟩ := powerOfTen_eq hplace
  change (Number.int (Int64.ofNat digit)).Whole at hdigitWhole
  change (Number.int (Int64.ofNat digit)).toInt = digit at hdigitValue
  have hproduct : (Number.int (Int64.ofNat digit)).toInt * (powerOfTen place).toInt =
      (10 ^ place * digit : Nat) := by
    rw [hdigitValue, hpowerValue, mul_comm]
    simp
  obtain ⟨hwhole, hvalue⟩ := hdigitWhole.mul hpowerWhole (by rw [hproduct]; omega)
  rw [hproduct] at hvalue
  have hsigned : ((10 ^ place * digit : Nat) * sign.toInt).natAbs < 2 ^ 63 := by
    rcases hsign.unit with h | h <;> rw [h] <;> omega
  obtain ⟨hwhole', hvalue'⟩ := hwhole.mul hsign.whole (by rw [hvalue]; exact hsigned)
  exact ⟨hwhole', by rw [hvalue', hvalue]⟩

/-- The first digit counts with its place. -/
theorem ofDigitChars_cons_eq (c : Char) (rest : List Char) :
    Nat.ofDigitChars 10 (c :: rest) 0 =
      10 ^ rest.length * digitValue c + Nat.ofDigitChars 10 rest 0 := by
  rw [Nat.ofDigitChars_cons, Nat.ofDigitChars_eq_ofDigitChars_zero, Nat.mul_zero, Nat.zero_add]
  rfl

/-- The components of digits have the given sign and add up to the number with these digits. -/
theorem wholeComponents_eq {sign : Number} (hsign : sign.IsSign) {digits : List Char}
    (hdigits : ∀ c ∈ digits, c.isDigit = true) (hbound : Nat.ofDigitChars 10 digits 0 < 2 ^ 63) :
    (∀ c ∈ wholeComponents sign digits, c.Whole ∧ 1 ≤ c.toInt * sign.toInt) ∧
      ((wholeComponents sign digits).map toInt).sum =
        Nat.ofDigitChars 10 digits 0 * sign.toInt := by
  induction digits with
  | nil => exact ⟨(fun _ h => nomatch h), by simp [wholeComponents]⟩
  | cons c rest ih =>
    have hvalue := ofDigitChars_cons_eq c rest
    obtain ⟨ihsign, ihsum⟩ := ih (fun c hc => hdigits c (by simp [hc])) (by omega)
    unfold wholeComponents
    split
    · rename_i hzero
      rw [hvalue, hzero, show digitValue '0' = 0 by decide, Nat.mul_zero, Nat.zero_add]
      exact ⟨ihsign, ihsum⟩
    · rename_i hne
      obtain ⟨hlow, -⟩ := digitValue_between (hdigits c (by simp)) hne
      obtain ⟨hwhole, hcomponent⟩ := digitComponent_eq hsign rest.length hlow (by omega)
      constructor
      · refine List.forall_mem_cons.2 ⟨⟨hwhole, ?_⟩, ihsign⟩
        rw [hcomponent]
        have hpos : 1 ≤ 10 ^ rest.length * digitValue c :=
          Nat.mul_pos (Nat.pow_pos (by decide)) hlow
        rcases hsign.unit with h | h <;> rw [h] <;> omega
      · rw [List.map_cons, List.sum_cons, hcomponent, ihsum, hvalue]
        rw [← Int.add_mul, ← Int.natCast_add]

theorem Whole.isNegative_eq {n : Number} (hn : n.Whole) : n.isNegative = decide (n.toInt < 0) := by
  cases n with
  | float x => exact hn.elim
  | int n => exact decide_eq_decide.2 Int64.lt_iff_toInt_lt

theorem Whole.isZero_iff {n : Number} (hn : n.Whole) : n.isZero = true ↔ n.toInt = 0 := by
  cases n with
  | float x => exact hn.elim
  | int n => exact beq_iff_eq.trans Int64.toInt_inj.symm

theorem Whole.toInt_abs {n : Number} (hn : n.Whole) : n.abs.toInt = n.toInt.natAbs := by
  unfold Number.abs
  rw [hn.isNegative_eq]
  split
  · rename_i hneg
    have : n.toInt < 0 := of_decide_eq_true hneg
    rw [hn.toInt_neg]
    omega
  · rename_i hneg
    have : ¬ n.toInt < 0 := by simpa using hneg
    omega

theorem Whole.decimal?_eq {n : Number} (hn : n.Whole) :
    n.decimal? = some (Decimal.ofInt n.toInt) := by
  cases n with
  | float x => exact hn.elim
  | int n => rfl

/-- The components of an integer: none, or one for every digit that is not zero. -/
theorem Whole.components_eq {n : Number} (hn : n.Whole) :
    ∃ sign : Number, sign.IsSign ∧ n.toInt = n.toInt.natAbs * sign.toInt ∧
      n.components = if (wholeComponents sign (Nat.toDigits 10 n.toInt.natAbs)).isEmpty then [0]
        else wholeComponents sign (Nat.toDigits 10 n.toInt.natAbs) := by
  refine ⟨if n.isNegative then -1 else 1, isSign_of _, ?_, ?_⟩
  · rw [hn.isNegative_eq]
    by_cases hneg : n.toInt < 0
    · rw [decide_eq_true hneg]
      show n.toInt = n.toInt.natAbs * -1
      omega
    · rw [decide_eq_false hneg]
      show n.toInt = n.toInt.natAbs * 1
      omega
  · unfold components
    rw [hn.abs.decimal?_eq, hn.toInt_abs]
    show (if (wholeComponents _ _ ++ []).isEmpty then _ else wholeComponents _ _ ++ []) = _
    rw [List.append_nil]
    rfl

theorem sum_magnitudes {sign : Int} (hsign : sign = 1 ∨ sign = -1) {parts : List Number}
    (h : ∀ c ∈ parts, 1 ≤ c.toInt * sign) :
    (parts.map fun c => max 1 c.toInt.natAbs).sum = (parts.map toInt).sum * sign := by
  induction parts with
  | nil => simp
  | cons c rest ih =>
    have hc := h c (by simp)
    have hrest := ih fun c hc => h c (by simp [hc])
    simp only [List.map_cons, List.sum_cons, Int.natCast_add, hrest, Int.add_mul]
    rcases hsign with rfl | rfl <;> omega

/-- The components of an integer have its sign and add up to it. -/
theorem Whole.sum_components {n : Number} (hn : n.Whole) :
    n.components ≠ [] ∧
      (∀ c ∈ n.components, c.Whole ∧ (0 ≤ n.toInt → 0 ≤ c.toInt) ∧ (n.toInt ≤ 0 → c.toInt ≤ 0)) ∧
      (n.components.map toInt).sum = n.toInt ∧
      (n.components.map fun c => max 1 c.toInt.natAbs).sum = max 1 n.toInt.natAbs := by
  obtain ⟨sign, hsign, hvalue, hcomponents⟩ := hn.components_eq
  have hdigits : Nat.ofDigitChars 10 (Nat.toDigits 10 n.toInt.natAbs) 0 = n.toInt.natAbs :=
    Nat.ofDigitChars_ten_toDigits
  obtain ⟨hparts, hsum⟩ := wholeComponents_eq hsign (Decimal.isDigit_toDigits n.toInt.natAbs)
    (by rw [hdigits]; exact hn.natAbs_lt)
  rw [hdigits, ← hvalue] at hsum
  rw [hcomponents]
  split
  · rename_i hempty
    have hzero : n.toInt = 0 := by
      rw [List.isEmpty_iff.1 hempty] at hsum
      exact hsum.symm
    rw [hzero]
    decide
  · rename_i hne
    generalize wholeComponents sign _ = parts at hparts hsum hne ⊢
    have hmagnitudes := sum_magnitudes hsign.unit fun c hc => (hparts c hc).2
    rw [hsum] at hmagnitudes
    obtain ⟨first, rest, rfl⟩ := List.exists_cons_of_ne_nil (show parts ≠ [] by simpa using hne)
    have hpos : 1 ≤ ((first :: rest).map fun c => max 1 c.toInt.natAbs).sum := by
      rw [List.map_cons, List.sum_cons]
      omega
    refine ⟨List.cons_ne_nil _ _, fun c hc => ⟨(hparts c hc).1, ?_⟩, hsum, ?_⟩
    · have hc' := (hparts c hc).2
      rcases hsign.unit with h | h <;> rw [h] at hmagnitudes hvalue hc' <;> omega
    · rcases hsign.unit with h | h <;> rw [h] at hmagnitudes hvalue <;> omega

end Number

/-! ### Coefficient and exponent -/

theorem dropTrailingZeros_append (digits : List Char) :
    ∃ count : Nat, digits = dropTrailingZeros digits ++ List.replicate count '0' ∧
      digits.length = (dropTrailingZeros digits).length + count := by
  refine ⟨(digits.reverse.takeWhile (· == '0')).length, ?_, ?_⟩
  · have hzeros : digits.reverse.takeWhile (· == '0') =
        List.replicate (digits.reverse.takeWhile (· == '0')).length '0' := by
      refine List.eq_replicate_iff.2 ⟨rfl, fun c hc => ?_⟩
      have hall := List.all_eq_true.1 (List.all_takeWhile (p := (· == '0')) (l := digits.reverse))
      exact beq_iff_eq.1 (hall c hc)
    have hsplit := congrArg List.reverse
      (List.takeWhile_append_dropWhile (p := (· == '0')) (l := digits.reverse))
    rw [List.reverse_append, List.reverse_reverse] at hsplit
    rw [hzeros, List.reverse_replicate] at hsplit
    exact hsplit.symm
  · have hlength := congrArg List.length
      (List.takeWhile_append_dropWhile (p := (· == '0')) (l := digits.reverse))
    rw [List.length_append, List.length_reverse] at hlength
    unfold dropTrailingZeros
    rw [List.length_reverse]
    omega

/-- Digits without trailing zeros do not end in a zero. -/
theorem not_dvd_dropTrailingZeros {digits : List Char} (hdigits : ∀ c ∈ digits, c.isDigit = true)
    (hne : dropTrailingZeros digits ≠ []) :
    ¬ 10 ∣ Nat.ofDigitChars 10 (dropTrailingZeros digits) 0 := by
  have hmem : ∀ c ∈ digits.reverse.dropWhile (· == '0'), c.isDigit = true := fun c hc =>
    hdigits c (List.mem_reverse.1 ((List.dropWhile_suffix _).mem hc))
  have hhead := List.head?_dropWhile_not (· == '0') digits.reverse
  unfold dropTrailingZeros at hne ⊢
  cases hrest : digits.reverse.dropWhile (· == '0') with
  | nil => exact absurd (by rw [hrest]; rfl) hne
  | cons c rest =>
    rw [hrest] at hmem hhead
    obtain ⟨hlow, hhigh⟩ := Number.digitValue_between (hmem c (by simp)) (by simpa using hhead)
    rw [List.reverse_cons, Nat.ofDigitChars_append, Nat.ofDigitChars_cons, Nat.ofDigitChars_nil]
    change ¬ 10 ∣ 10 * _ + Number.digitValue c
    omega

namespace Number

theorem ofDigits_eq {digits : List Char} (h : Nat.ofDigitChars 10 digits 0 < 2 ^ 63) :
    (ofDigits digits).Whole ∧ (ofDigits digits).toInt = Nat.ofDigitChars 10 digits 0 := by
  unfold ofDigits
  rw [ofInt_eq ⟨by omega, by omega⟩]
  exact whole_ofInt (by omega)

/-- The coefficient of an integer that is not zero is read off its digits without the trailing zeros. -/
theorem Whole.scale_of_not_isZero {n : Number} (hn : n.Whole) (hzero : ¬ n.isZero = true) :
    ∃ (digits : List Char) (k : Nat),
      digits = dropTrailingZeros (Nat.toDigits 10 n.toInt.natAbs) ∧
      n.scale = (if n.isNegative then -ofDigits digits else ofDigits digits, (k : Int)) ∧
      10 ^ k * Nat.ofDigitChars 10 digits 0 = n.toInt.natAbs ∧
      (ofDigits digits).Whole ∧ (ofDigits digits).toInt = Nat.ofDigitChars 10 digits 0 := by
  obtain ⟨k, hdigits, hlength⟩ := dropTrailingZeros_append (Nat.toDigits 10 n.toInt.natAbs)
  have hvalue : 10 ^ k * Nat.ofDigitChars 10 (dropTrailingZeros (Nat.toDigits 10 n.toInt.natAbs)) 0 =
      n.toInt.natAbs := by
    rw [← Nat.ofDigitChars_replicate_zero, ← Nat.ofDigitChars_append, ← hdigits]
    exact Nat.ofDigitChars_ten_toDigits
  have hscale : scaleDecimal (Decimal.ofInt n.toInt.natAbs) =
      (ofDigits (dropTrailingZeros (Nat.toDigits 10 n.toInt.natAbs)), (k : Int)) := by
    show (_, _) = (_, _)
    refine Prod.ext rfl ?_
    show ((Nat.toDigits 10 n.toInt.natAbs).length : Int) -
      (dropTrailingZeros (Nat.toDigits 10 n.toInt.natAbs)).length = k
    omega
  refine ⟨_, k, rfl, ?_, hvalue, ofDigits_eq ?_⟩
  · rw [scale, if_neg hzero, hn.abs.decimal?_eq, hn.toInt_abs]
    dsimp only
    rw [hscale]
  · have hone : 1 ≤ 10 ^ k := Nat.one_le_pow _ _ (by decide)
    refine lt_of_le_of_lt (Nat.le_mul_of_pos_left _ hone) ?_
    rw [hvalue]
    exact hn.natAbs_lt

/-- The coefficient of an integer that is not zero has no trailing zeros. -/
theorem Whole.not_dvd_scale {n : Number} (hn : n.Whole) (hzero : n.toInt ≠ 0) :
    ¬ (10 : Int) ∣ n.scale.1.toInt := by
  obtain ⟨digits, k, hdrop, hscale, hvalue, hwhole, hdigits⟩ :=
    hn.scale_of_not_isZero (fun h => hzero (hn.isZero_iff.1 h))
  have hne : digits ≠ [] := by
    rintro rfl
    rw [Nat.ofDigitChars_nil, Nat.mul_zero] at hvalue
    omega
  have hnot : ¬ 10 ∣ Nat.ofDigitChars 10 digits 0 := by
    rw [hdrop]
    refine not_dvd_dropTrailingZeros (Decimal.isDigit_toDigits _) (hdrop ▸ hne)
  rw [hscale]
  dsimp only
  split
  · rw [hwhole.toInt_neg, hdigits]
    omega
  · rw [hdigits]
    omega

/-- Scaling an integer takes a power of ten out of it. -/
theorem Whole.scale_eq {n : Number} (hn : n.Whole) :
    ∃ k : Nat, n.scale.2 = k ∧ n.scale.1.Whole ∧ n.scale.1.toInt * 10 ^ k = n.toInt ∧
      max 1 n.scale.1.toInt.natAbs * 10 ^ k = max 1 n.toInt.natAbs := by
  by_cases hzero : n.isZero = true
  · rw [scale, if_pos hzero]
    refine ⟨0, rfl, by decide, ?_⟩
    rw [hn.isZero_iff.1 hzero]
    decide
  · obtain ⟨digits, k, -, hscale, hvalue, hwhole, hdigits⟩ := hn.scale_of_not_isZero hzero
    have hpos : 1 ≤ n.toInt.natAbs := by
      rw [hn.isZero_iff] at hzero
      omega
    have hdigitsPos : 1 ≤ Nat.ofDigitChars 10 digits 0 := by
      by_contra hnot
      rw [show Nat.ofDigitChars 10 digits 0 = 0 by omega, Nat.mul_zero] at hvalue
      omega
    have hproduct : (Nat.ofDigitChars 10 digits 0 : Int) * 10 ^ k = n.toInt.natAbs := by
      rw [← hvalue, Int.natCast_mul, mul_comm]
      simp
    have hmagnitude : max 1 (Nat.ofDigitChars 10 digits 0) * 10 ^ k = max 1 n.toInt.natAbs := by
      rw [max_eq_right hdigitsPos, max_eq_right hpos, mul_comm, hvalue]
    rw [hscale, hn.isNegative_eq]
    refine ⟨k, rfl, ?_⟩
    dsimp only
    split
    · rename_i hneg
      have hneg' : n.toInt < 0 := of_decide_eq_true hneg
      refine ⟨hwhole.neg, ?_⟩
      rw [hwhole.toInt_neg, hdigits, Int.neg_mul, hproduct, Int.natAbs_neg, Int.natAbs_natCast]
      exact ⟨by omega, hmagnitude⟩
    · rename_i hneg
      have hneg' : ¬ n.toInt < 0 := by simpa using hneg
      refine ⟨hwhole, ?_⟩
      rw [hdigits, hproduct, Int.natAbs_natCast]
      exact ⟨by omega, hmagnitude⟩

end Number

end Workings

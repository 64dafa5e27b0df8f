import Workings.Proofs.Words

/-!
# Integers as floats

An integer that is not zero is a float that is not below one in magnitude, whatever it is rounded to
(`not_ofInt_abs_lt`). So only zero is taken for zero among the integers, as long as the options do not
ask for more, and a positive integer is a positive float (`zero_lt_ofInt`).
-/

namespace Workings

open Float.Model Float.Model.UnpackedFloat

/-- A normal float that is not below one, or positive infinity. -/
inductive Large : UnpackedFloat → Prop
  | infinity : Large (.infinity .positive)
  | finite {m : Nat} {e : Int} (pos : 0 < m) (bits : m.log2 = 52) (exponent : -52 ≤ e) :
    Large (.finite .positive m e pos)

/-! ### Rounding -/

theorem log2_eq {m k : Nat} (h₁ : 2 ^ k ≤ m) (h₂ : m < 2 ^ (k + 1)) : m.log2 = k := by
  have hpos : m ≠ 0 := by
    have := Nat.two_pow_pos k
    omega
  have hlow := (Nat.le_log2 hpos).2 h₁
  have hhigh := (Nat.log2_lt hpos).2 h₂
  omega

theorem mantissa_shiftRight (em : ExtendedMantissa) (n : Nat) :
    (em >>> n).mantissa = em.mantissa / 2 ^ n := by
  change (n.repeat ExtendedMantissa.shiftRightOne em).mantissa = _
  induction n with
  | zero => simp [Nat.repeat]
  | succ n ih =>
    rw [Nat.repeat, ExtendedMantissa.shiftRightOne, ih, Nat.div_div_eq_div_mul, Nat.pow_succ]

theorem roundedMantissa_between (em : ExtendedMantissa) :
    em.mantissa ≤ em.roundedMantissa ∧ em.roundedMantissa ≤ em.mantissa + 1 := by
  obtain ⟨m, round, sticky⟩ := em
  cases round <;> cases sticky <;>
    simp only [ExtendedMantissa.roundedMantissa, ExtendedMantissa.accuracy,
      Accuracy.roundToNearestEven] <;> omega

theorem targetExponent_max (m : Nat) (e : Int) :
    Format.binary64.targetExponent (totalExponent m e) = max (m.log2 + e - 52) (-1074) := by
  have hmin : Format.binary64.minExponent = -1074 := by decide
  have hbits : (Format.binary64.mantissaBits : Int) = 53 := by decide
  unfold Format.targetExponent totalExponent
  rw [hmin, hbits]
  omega

theorem targetExponent_eq {m : Nat} {e : Int} (h : 0 ≤ m.log2 + e) :
    Format.binary64.targetExponent (totalExponent m e) = m.log2 + e - 52 := by
  rw [targetExponent_max]
  omega

theorem shiftToTargetExponent_eq_shiftRight {m : Nat} {e : Int} (accuracy : Accuracy) (d : Nat)
    (hd : (max (m.log2 + e - 52) (-1074) - e).toNat = d) :
    shiftToTargetExponent Format.binary64 m e accuracy =
      (ExtendedMantissa.ofMantissaAndAccuracy m accuracy >>> d, e + d) := by
  unfold shiftToTargetExponent shiftToExponent
  rw [targetExponent_max]
  dsimp only
  rw [hd]

/-- A significand of at least 53 bits is cut down to 53 bits. -/
theorem shiftToTargetExponent_eq {m : Nat} {e : Int} (hbits : 52 ≤ m.log2)
    (hone : 0 ≤ m.log2 + e) :
    (shiftToTargetExponent Format.binary64 m e .exact).1.mantissa = m / 2 ^ (m.log2 - 52) ∧
      (shiftToTargetExponent Format.binary64 m e .exact).2 = m.log2 + e - 52 := by
  rw [shiftToTargetExponent_eq_shiftRight .exact (m.log2 - 52) (by omega)]
  exact ⟨mantissa_shiftRight _ _, by omega⟩

theorem div_pow_log2_between {m : Nat} (hbits : 52 ≤ m.log2) :
    2 ^ 52 ≤ m / 2 ^ (m.log2 - 52) ∧ m / 2 ^ (m.log2 - 52) < 2 ^ 53 := by
  have hpos : m ≠ 0 := by
    rintro rfl
    exact absurd hbits (by decide)
  constructor
  · rw [Nat.le_div_iff_mul_le (Nat.two_pow_pos _), ← Nat.pow_add]
    rw [show 52 + (m.log2 - 52) = m.log2 by omega]
    exact Nat.log2_self_le hpos
  · rw [Nat.div_lt_iff_lt_mul (Nat.two_pow_pos _), ← Nat.pow_add]
    rw [show 53 + (m.log2 - 52) = m.log2 + 1 by omega]
    exact Nat.lt_log2_self

theorem large_roundWithAccuracy {m : Nat} {e : Int} (hbits : 52 ≤ m.log2) (hone : 0 ≤ m.log2 + e) :
    Large (roundWithAccuracy Format.binary64 .positive m e .exact) := by
  obtain ⟨hmantissa, hexponent⟩ := shiftToTargetExponent_eq hbits hone
  obtain ⟨hlow, hhigh⟩ := div_pow_log2_between hbits
  rw [← hmantissa] at hlow hhigh
  unfold roundWithAccuracy
  rcases hshift : shiftToTargetExponent Format.binary64 m e .exact with ⟨em, e'⟩
  rw [hshift] at hlow hhigh hexponent
  dsimp only at hlow hhigh hexponent ⊢
  -- rounding can raise 53 bits to the next power of two, which is then cut down again
  obtain ⟨hround₁, hround₂⟩ := roundedMantissa_between em
  have hpos : em.roundedMantissa ≠ 0 := by omega
  have hbits' : 52 ≤ em.roundedMantissa.log2 := (Nat.le_log2 hpos).2 (by omega)
  have hone' : 0 ≤ em.roundedMantissa.log2 + e' := by omega
  obtain ⟨hfinal, hfinalExponent⟩ := shiftToTargetExponent_eq hbits' hone'
  obtain ⟨hlow', hhigh'⟩ := div_pow_log2_between hbits'
  rw [← hfinal] at hlow' hhigh'
  rw [dif_neg (by omega)]
  exact .finite _ (log2_eq hlow' hhigh') (by omega)

theorem log2_shiftLeft {m : Nat} (hm : m ≠ 0) (k : Nat) : (m <<< k).log2 = m.log2 + k := by
  rw [Nat.shiftLeft_eq]
  apply log2_eq
  · rw [Nat.pow_add]
    exact Nat.mul_le_mul_right _ (Nat.log2_self_le hm)
  · rw [show m.log2 + k + 1 = m.log2 + 1 + k by omega, Nat.pow_add]
    exact Nat.mul_lt_mul_of_pos_right Nat.lt_log2_self (Nat.two_pow_pos k)

theorem ofNat_eq_round {n : Nat} (hn : n ≠ 0) :
    UnpackedFloat.ofNat Format.binary64 n = UnpackedFloat.round Format.binary64 .positive n 0 := by
  have hcompare : compare (n : Int) 0 = .gt := Int.compare_eq_gt.2 (by omega)
  unfold UnpackedFloat.ofNat UnpackedFloat.ofInt UnpackedFloat.normalize
  rw [hcompare]
  rfl

theorem large_ofNat {n : Nat} (hn : n ≠ 0) : Large (UnpackedFloat.ofNat Format.binary64 n) := by
  rw [ofNat_eq_round hn]
  unfold UnpackedFloat.round decreaseExponent
  rw [targetExponent_eq (by omega)]
  apply large_roundWithAccuracy
  · rw [log2_shiftLeft hn]
    omega
  · rw [log2_shiftLeft hn]
    omega

theorem large_mul_finite {m m' : Nat} {e e' : Int} (hm : 0 < m) (hm' : 0 < m')
    (hbits : 52 ≤ (m * m').log2) (hone : 0 ≤ (m * m').log2 + (e + e')) :
    Large (UnpackedFloat.mul Format.binary64 (.finite .positive m e hm)
      (.finite .positive m' e' hm')) :=
  large_roundWithAccuracy hbits hone

theorem Large.mul {a b : UnpackedFloat} (ha : Large a) (hb : Large b) :
    Large (UnpackedFloat.mul Format.binary64 a b) := by
  cases ha with
  | infinity =>
    cases hb with
    | infinity => exact .infinity
    | finite _ _ _ => exact .infinity
  | @finite m e hm hbits he =>
    cases hb with
    | infinity => exact .infinity
    | @finite m' e' hm' hbits' he' =>
      have hlog : 104 ≤ (m * m').log2 := by
        have hpos : m * m' ≠ 0 := (Nat.mul_pos hm hm').ne'
        have h₁ : 2 ^ 52 ≤ m := hbits ▸ Nat.log2_self_le hm.ne'
        have h₂ : 2 ^ 52 ≤ m' := hbits' ▸ Nat.log2_self_le hm'.ne'
        have hproduct : 2 ^ 52 * 2 ^ 52 ≤ m * m' := Nat.mul_le_mul h₁ h₂
        rw [← Nat.pow_add] at hproduct
        exact (Nat.le_log2 hpos).2 hproduct
      exact large_mul_finite hm hm' (by omega) (by omega)

/-! ### Packing -/

theorem unpackSign_packComponents {spec : Format} (sign : Sign) (exponent : BitVec spec.exponentBits)
    (mantissa : BitVec spec.mantissaBitsWithoutImplicit) :
    unpackSign (packComponents spec sign exponent mantissa) = sign.toBitVec := by
  ext i hi
  obtain rfl : i = 0 := by omega
  simp [unpackSign, packComponents, BitVec.getLsbD_append, BitVec.getElem_append]

theorem unpack_packedInfinity (sign : Sign) :
    UnpackedFloat.unpack Format.binary64 (packedInfinity Format.binary64 sign) =
      .infinity sign := by
  unfold UnpackedFloat.unpack packedInfinity
  cases sign <;> simp [Sign.toBitVec, Sign.ofBitVec]

theorem log2_implicit (mantissa : BitVec 52) : (1#1 ++ mantissa).toNat.log2 = 52 := by
  have hvalue : (1#1 ++ mantissa).toNat = 2 ^ 52 + mantissa.toNat := by
    rw [BitVec.toNat_append, ← Nat.shiftLeft_add_eq_or_of_lt mantissa.isLt]
    rfl
  have hlt := mantissa.isLt
  exact log2_eq (by omega) (by omega)

/-- The word of a normal float that is not below one in magnitude is read back as such a float. -/
theorem unpack_normal (sign : Sign) {biased : Nat} (hlow : 1023 ≤ biased) (hhigh : biased < 2047)
    (mantissa : BitVec 52) :
    ∃ m e hm, UnpackedFloat.unpack Format.binary64
      (packComponents Format.binary64 sign (BitVec.ofNat _ biased) mantissa) =
        .finite sign m e hm ∧ m.log2 = 52 ∧ -52 ≤ e := by
  have hbiased : (BitVec.ofNat 11 biased).toNat = biased := by
    rw [BitVec.toNat_ofNat, Nat.mod_eq_of_lt (by omega)]
  have hbias : Format.binary64.exponentBias = 1023 := by decide
  have hsign : Sign.ofBitVec sign.toBitVec = sign := by cases sign <;> rfl
  unfold UnpackedFloat.unpack
  simp only [unpackMantissa_packComponents, unpackExponent_packComponents,
    unpackSign_packComponents, hsign]
  split
  · rename_i hones
    have := congrArg BitVec.toNat hones
    rw [hbiased] at this
    exact absurd this (by simp; omega)
  · split
    · rename_i hzero
      have := congrArg BitVec.toNat hzero
      rw [hbiased] at this
      exact absurd this (by simp; omega)
    · have hpos : 0 < (1#1 ++ mantissa).toNat := by
        refine Nat.pos_of_ne_zero fun hzero => ?_
        have hbits := log2_implicit mantissa
        rw [hzero] at hbits
        cases hbits
      refine ⟨_, _, hpos, rfl, log2_implicit mantissa, ?_⟩
      rw [hbiased, hbias]
      omega

/-- A float that is not below one in magnitude is packed to an infinity or to the word of a normal
float. -/
theorem unpack_pack_finite (sign : Sign) {m : Nat} {e : Int} (hm : 0 < m) (hbits : m.log2 = 52)
    (he : -52 ≤ e) :
    UnpackedFloat.unpack Format.binary64
        (UnpackedFloat.pack Format.binary64 (.finite sign m e hm)) = .infinity sign ∨
      ∃ m' e' hm', UnpackedFloat.unpack Format.binary64
        (UnpackedFloat.pack Format.binary64 (.finite sign m e hm)) = .finite sign m' e' hm' ∧
          m'.log2 = 52 ∧ -52 ≤ e' := by
  have hbias : Format.binary64.exponentBias = 1023 := by decide
  unfold UnpackedFloat.pack
  dsimp only
  split
  · exact .inl (unpack_packedInfinity sign)
  · rename_i hfits
    rw [hbias] at hfits ⊢
    rw [hbits, if_pos (by decide)]
    exact .inr (unpack_normal sign (by omega) (by omega) _)

theorem Large.unpack_pack {a : UnpackedFloat} (ha : Large a) :
    Large (UnpackedFloat.unpack Format.binary64 (UnpackedFloat.pack Format.binary64 a)) := by
  cases ha with
  | infinity =>
    show Large (UnpackedFloat.unpack _ (packedInfinity _ _))
    rw [unpack_packedInfinity]
    exact .infinity
  | finite hm hbits he =>
    rcases unpack_pack_finite .positive hm hbits he with h | ⟨m', e', hm', h, hbits', he'⟩
    · rw [h]
      exact .infinity
    · rw [h]
      exact .finite hm' hbits' he'

/-- A float that is not below one is so in magnitude when its sign has been changed. -/
theorem Large.abs_unpack_pack_neg {a : UnpackedFloat} (ha : Large a) :
    Large (UnpackedFloat.unpack Format.binary64 (UnpackedFloat.pack Format.binary64 a.neg)).abs := by
  cases ha with
  | infinity =>
    show Large (UnpackedFloat.unpack _ (packedInfinity _ _)).abs
    rw [unpack_packedInfinity]
    exact .infinity
  | finite hm hbits he =>
    rcases unpack_pack_finite .negative hm hbits he with h | ⟨m', e', hm', h, hbits', he'⟩
    · show Large (UnpackedFloat.unpack _ (UnpackedFloat.pack _ (.finite .negative _ _ hm))).abs
      rw [h]
      exact .infinity
    · show Large (UnpackedFloat.unpack _ (UnpackedFloat.pack _ (.finite .negative _ _ hm))).abs
      rw [h]
      exact .finite hm' hbits' he'

/-! ### Floats -/

theorem large_toFloat {n : Nat} (hn : n ≠ 0) (hword : n < 2 ^ 53) :
    Large n.toUInt64.toFloat.toModel.unpack := by
  have hto : n.toUInt64.toNat = n := by
    show n % 2 ^ 64 = n
    exact Nat.mod_eq_of_lt (by omega)
  refine Large.unpack_pack ?_
  show Large (UnpackedFloat.ofNat _ n.toUInt64.toNat)
  rw [hto]
  exact large_ofNat hn

theorem unpack_one :
    UnpackedFloat.unpack Format.binary64 0x3FF0000000000000#64 =
      .finite .positive (2 ^ 52) (-52) (by decide) := by
  rfl

theorem large_ofBits_one : Large (Float.ofBits 0x3FF0000000000000).toModel.unpack := by
  refine Large.unpack_pack ?_
  show Large (UnpackedFloat.unpack Format.binary64 0x3FF0000000000000#64)
  rw [unpack_one]
  exact .finite _ (log2_eq (by decide) (by decide)) (by decide)

theorem large_float_ofNat {n : Nat} (hn : n ≠ 0) : Large (Float.ofNat n).toModel.unpack := by
  show Large (Float.ofScientific n false 0).toModel.unpack
  unfold Float.ofScientific
  split
  · rename_i h
    exact (large_toFloat hn h.1).mul large_ofBits_one |>.unpack_pack
  · refine Large.unpack_pack ?_
    unfold UnpackedFloat.ofScientific
    have hexponent : ¬ (0 : Int) < -(2 ^ Format.binary64.exponentBits + n.log2) := by
      have hpos : (0 : Int) ≤ 2 ^ Format.binary64.exponentBits := by decide
      omega
    rw [dif_neg hn, if_neg (by decide), if_neg (by exact hexponent), if_pos (by decide)]
    have hbits : Format.binary64.mantissaBits = 53 := by decide
    have hlog : (n <<< Format.binary64.mantissaBits * 1).log2 = n.log2 + 53 := by
      rw [Nat.mul_one, log2_shiftLeft hn, hbits]
    apply large_mul_finite
    · change 52 ≤ (n <<< Format.binary64.mantissaBits * 1).log2
      omega
    · change 0 ≤ ((n <<< Format.binary64.mantissaBits * 1).log2 : Int) + _
      rw [hlog, hbits]
      omega

theorem toBits_one : (1 : Float).toModel.toBits = 0x3FF0000000000000 := by
  decide +kernel

/-- What is not below one is not below anything that is at most one. -/
theorem Large.not_lt {a x : UnpackedFloat} (ha : Large a)
    (hx : x.le (.finite .positive (2 ^ 52) (-52) (by decide)) = true) : a.lt x = false := by
  cases ha with
  | infinity =>
    cases x with
    | infinity sign => cases sign <;> rfl
    | notANumber | zero _ | finite _ _ _ _ => rfl
  | @finite m e hm hbits he =>
    have hlow : 2 ^ 52 ≤ m := hbits ▸ Nat.log2_self_le hm.ne'
    cases x with
    | notANumber | zero _ => rfl
    | infinity sign =>
      cases sign with
      | negative => rfl
      | positive => cases hx
    | finite sign m' e' hm' =>
      cases sign with
      | negative => rfl
      | positive =>
        have hle : compare e' (-52) = .lt ∨
            compare e' (-52) = .eq ∧ (compare m' (2 ^ 52)).isLE = true :=
          Ordering.isLE_then_iff_or.1 hx
        rw [Int.compare_eq_lt, Int.compare_eq_eq, Nat.isLE_compare] at hle
        have hnot : (compare e e').then (compare m m') ≠ .lt := by
          intro hlt
          rw [Ordering.then_eq_lt, Int.compare_eq_lt, Int.compare_eq_eq, Nat.compare_eq_lt] at hlt
          omega
        show (some ((compare e e').then (compare m m')) == some .lt) = false
        rw [beq_eq_false_iff_ne]
        exact fun h => hnot (Option.some.inj h)

theorem toBits_zero : (0.0 : Float).toModel.toBits = 0 := by
  decide +kernel

theorem unpack_float_zero : (0.0 : Float).toModel.unpack = .zero .positive := by
  unfold Float.Model.unpack
  rw [toBits_zero]
  rfl

theorem Large.zero_lt {a : UnpackedFloat} (ha : Large a) :
    (UnpackedFloat.zero .positive).lt a = true := by
  cases ha <;> rfl

/-- A positive integer is a positive float. -/
theorem zero_lt_ofInt {n : Int} (hn : 0 < n) : 0.0 < Float.ofInt n := by
  obtain ⟨k, rfl⟩ := Int.eq_succ_of_zero_lt hn
  have hlarge : Large (Float.ofInt (k + 1 : Int)).toModel.unpack := large_float_ofNat (Nat.succ_ne_zero k)
  have hlt : (0.0 : Float).toModel.unpack.lt (Float.ofInt (k + 1 : Int)).toModel.unpack = true := by
    rw [unpack_float_zero]
    exact hlarge.zero_lt
  exact decide_eq_true hlt

theorem Large.abs {a : UnpackedFloat} (ha : Large a) : Large a.abs := by
  cases ha with
  | infinity => exact .infinity
  | finite pos bits exponent => exact .finite pos bits exponent

theorem large_abs_ofInt {n : Int} (hn : n ≠ 0) : Large (Float.ofInt n).abs.toModel.unpack := by
  cases n with
  | ofNat k =>
    exact (large_float_ofNat fun hk => hn (congrArg Int.ofNat hk)).abs.unpack_pack
  | negSucc k => exact (large_float_ofNat (Nat.succ_ne_zero k)).abs_unpack_pack_neg.unpack_pack

/-- The magnitude of an integer that is not zero is not below anything that is at most one. -/
theorem not_ofInt_abs_lt {n : Int} (hn : n ≠ 0) {x : Float} (hx : x ≤ 1) :
    ¬ (Float.ofInt n).abs < x := by
  have hone : x.toModel.unpack.le (.finite .positive (2 ^ 52) (-52) (by decide)) = true := by
    rw [← unpack_one]
    have hle : x.toModel.unpack.le (1 : Float).toModel.unpack = true := of_decide_eq_true hx
    unfold Float.Model.unpack at hle
    rw [toBits_one] at hle
    exact hle
  have hlt := (large_abs_ofInt hn).not_lt hone
  intro h
  have h' : (Float.ofInt n).abs.toModel.unpack.lt x.toModel.unpack = true := of_decide_eq_true h
  rw [hlt] at h'
  cases h'

end Workings

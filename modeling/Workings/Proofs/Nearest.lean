import Workings.Proofs.Significands

/-!
# The nearest float

A product, a quotient, or a number written in decimal is the float nearest to its exact value, and of
two floats that are equally near it is the one with the even significand (`Nearest`). This is shown for
the conversion of decimals (`nearest_ofScientific`) and of integers (`nearest_ofInt`), for numbers below
the largest floats.
-/

namespace Workings

open Float.Model Float.Model.UnpackedFloat

namespace Binary64

/-! ### Operations -/

variable {x y : Float} {m m₁ m₂ : ℕ} {e e₁ e₂ : ℤ}

/-- Rounding is exact on the numbers that floats stand for. -/
theorem Rounds.exact {q : ℚ} (h : Rounds q m e) {k f : ℤ} (hk : |k| < 2 ^ 53) (hf : -1074 ≤ f)
    (hq : q = k * 2 ^ f) : (m * 2 ^ e : ℚ) = q := by
  have hzero : |q - k * 2 ^ f| = 0 := by rw [hq, sub_self, abs_zero]
  rcases h.nearest hk hf with hlt | ⟨heq, -⟩
  · rw [hzero] at hlt
    exact absurd (abs_nonneg _) hlt.not_ge
  · rw [hzero, abs_eq_zero, sub_eq_zero] at heq
    exact heq.symm

/-- Rounding leads beyond the floats only from numbers that are too large. -/
theorem Rounds.exponent_le {q : ℚ} (h : Rounds q m e) (hq : q < 2 ^ (1023 : ℤ)) : e ≤ 971 := by
  by_contra hlarge
  obtain ⟨-, -, hnormal⟩ := h.canonical false
  have hm : (2 ^ (52 : ℤ) : ℚ) ≤ m := by exact_mod_cast hnormal.resolve_left (by omega)
  have hvalue : 2 * (2 : ℚ) ^ (1023 : ℤ) ≤ m * 2 ^ e := by
    calc 2 * (2 : ℚ) ^ (1023 : ℤ) = 2 ^ (1 : ℤ) * 2 ^ (1023 : ℤ) := by rw [zpow_one]
      _ = 2 ^ (52 : ℤ) * 2 ^ (972 : ℤ) := by rw [← two_zpow_add, ← two_zpow_add]; rfl
      _ ≤ m * 2 ^ e := mul_le_mul hm (zpow_le_zpow_right₀ (by norm_num) (by omega))
          (zpow_pos (by norm_num) _).le (Nat.cast_nonneg m)
  have hother : (((2 ^ 52 : ℤ) : ℚ) * 2 ^ (971 : ℤ)) = 2 ^ (1023 : ℤ) := by
    rw [show (1023 : ℤ) = 52 + 971 by norm_num, two_zpow_add]
    congr 1
  have hnearest := h.nearest (k := 2 ^ 52) (f := 971) (by decide) (by decide)
  have hpos : (0 : ℚ) < 2 ^ (1023 : ℤ) := zpow_pos (by norm_num) _
  rw [hother] at hnearest
  generalize (2 : ℚ) ^ (1023 : ℤ) = bound at *
  rw [abs_of_nonpos (by linarith), abs_of_nonpos (by linarith)] at hnearest
  rcases hnearest with hlt | ⟨heq, -⟩ <;> linarith

/-- A number that is at most half of the least float becomes zero. -/
theorem rounds_zero {q : ℚ} (hq : 0 ≤ q) (hsmall : q ≤ 2 ^ (-1075 : ℤ)) : Rounds q 0 (-1074) := by
  have hround : RoundsTo (q / 2 ^ (-1074 : ℤ)) 0 := by
    refine ⟨?_, fun _ => by decide⟩
    have hhalf : (2 : ℚ) ^ (-1075 : ℤ) = 1 / 2 * 2 ^ (-1074 : ℤ) := by
      rw [show (-1075 : ℤ) = -1 + -1074 by norm_num, two_zpow_add]
      norm_num
    have hpos : (0 : ℚ) < 2 ^ (-1074 : ℤ) := zpow_pos (by norm_num) _
    rw [Nat.cast_zero, sub_zero, abs_of_nonneg (div_nonneg hq hpos.le), div_le_iff₀ hpos, ← hhalf]
    exact hsmall
  exact ⟨fun _ => ⟨by decide, by decide, .inl rfl⟩, hround.nearest_scaled (.inl rfl)⟩

/-- A product is rounded. -/
theorem rounds_mul (e₁ e₂ : ℤ) (h₁ : 0 < m₁) (h₂ : 0 < m₂) (hbits : 2 ^ 52 ≤ m₁ * m₂) :
    ∃ m e, ofUnpacked (UnpackedFloat.mul Format.binary64 (.finite .positive m₁ e₁ h₁)
      (.finite .positive m₂ e₂ h₂)) = .finite false m e ∧
        Rounds (m₁ * 2 ^ e₁ * (m₂ * 2 ^ e₂)) m e := by
  have hvalue : (m₁ * 2 ^ e₁ * (m₂ * 2 ^ e₂) : ℚ) = (m₁ * m₂ : ℕ) * 2 ^ (e₁ + e₂) := by
    rw [two_zpow_add]
    push_cast
    ring
  rw [hvalue]
  exact rounds_roundWithAccuracy .positive (holds_exact _) (.inr hbits)

/-- A quotient is rounded. The dividend is shifted so far that the quotient has enough bits. -/
theorem rounds_div (e₁ e₂ : ℤ) (h₁ : 0 < m₁) (h₂ : 0 < m₂) :
    ∃ m e, ofUnpacked (UnpackedFloat.div Format.binary64 (.finite .positive m₁ e₁ h₁)
      (.finite .positive m₂ e₂ h₂)) = .finite false m e ∧
        Rounds (m₁ * 2 ^ e₁ / (m₂ * 2 ^ e₂)) m e := by
  have hmin : Format.binary64.minExponent = -1074 := by decide
  have hmantissa : (Format.binary64.mantissaBits : ℤ) = 53 := by decide
  obtain ⟨t, ht⟩ : ∃ t : ℤ, t = min (e₁ - e₂)
      (Format.binary64.targetExponent (totalExponent m₁ e₁ - totalExponent m₂ e₂)) := ⟨_, rfl⟩
  have ht' := ht
  unfold Format.targetExponent totalExponent at ht'
  rw [hmin, hmantissa] at ht'
  obtain ⟨d, hd⟩ : ∃ d : ℕ, e₁ - e₂ = d + t := ⟨(e₁ - e₂ - t).toNat, by omega⟩
  have hvalue : (m₁ * 2 ^ e₁ / (m₂ * 2 ^ e₂) : ℚ) = ((m₁ <<< d : ℕ) / m₂ : ℚ) * 2 ^ t := by
    have hexponent : (2 : ℚ) ^ e₁ / 2 ^ e₂ = 2 ^ d * 2 ^ t := by
      rw [← zpow_sub₀ (by norm_num), hd, two_zpow_add, zpow_natCast]
    rw [mul_div_mul_comm, hexponent, Nat.shiftLeft_eq]
    push_cast
    ring
  have hbits : t ≤ -1074 ∨ 2 ^ 52 ≤ m₁ <<< d / m₂ := by
    by_cases hleast : t ≤ -1074
    · exact .inl hleast
    · right
      rw [Nat.le_div_iff_mul_le h₂]
      calc 2 ^ 52 * m₂ ≤ 2 ^ 52 * 2 ^ (m₂.log2 + 1) := Nat.mul_le_mul_left _ Nat.lt_log2_self.le
        _ = 2 ^ (m₂.log2 + 53) := by rw [← Nat.pow_add]; congr 1; omega
        _ ≤ 2 ^ (m₁.log2 + d) := Nat.pow_le_pow_right (by decide) (by omega)
        _ = 2 ^ m₁.log2 * 2 ^ d := Nat.pow_add ..
        _ ≤ m₁ * 2 ^ d := Nat.mul_le_mul_right _ (Nat.log2_self_le h₁.ne')
        _ = m₁ <<< d := (Nat.shiftLeft_eq m₁ d).symm
  have hcore : divCore Format.binary64 m₁ e₁ m₂ e₂ =
      (m₁ <<< d / m₂, t, accuracyOfFraction (m₁ <<< d % m₂) m₂) := by
    unfold divCore
    rw [← ht]
    dsimp only
    rw [show (e₁ - e₂ - t).toNat = d by omega]
  rw [hvalue]
  show ∃ m e, ofUnpacked
    (let (m, e, accuracy) := divCore Format.binary64 m₁ e₁ m₂ e₂
    roundWithAccuracy Format.binary64 .positive m e accuracy) = _ ∧ _
  rw [hcore]
  exact rounds_roundWithAccuracy .positive (holds_fraction _ h₂) hbits

theorem rounds_ofNat {n : ℕ} (hn : n ≠ 0) :
    ∃ m e, ofUnpacked (UnpackedFloat.ofNat Format.binary64 n) = .finite false m e ∧ Rounds n m e := by
  obtain ⟨d, hd⟩ : ∃ d : ℕ, (0 - max (n.log2 + (0 : ℤ) - 52) (-1074)).toNat = d := ⟨_, rfl⟩
  have hvalue : (n : ℚ) = (n <<< d : ℕ) * 2 ^ (0 - (d : ℤ)) := by
    rw [Nat.shiftLeft_eq, zero_sub, zpow_neg, zpow_natCast]
    push_cast
    rw [mul_assoc, mul_inv_cancel₀ (pow_ne_zero _ (by norm_num)), mul_one]
  have hbits : 2 ^ 52 ≤ n <<< d := by
    refine (Nat.le_log2 (by simpa using hn)).1 ?_
    rw [log2_shiftLeft hn]
    omega
  rw [ofNat_eq_round hn]
  unfold UnpackedFloat.round decreaseExponent
  rw [targetExponent_max]
  dsimp only
  rw [hd]
  have hrounds := rounds_roundWithAccuracy .positive (e := 0 - (d : ℤ)) (holds_exact (n <<< d)) (.inr hbits)
  rw [← hvalue] at hrounds
  exact hrounds

/-- What is taken for zero because of its exponent is at most half of the least float. -/
theorem scientific_le (n : ℕ) {e : ℤ} (he : e < -(2048 + n.log2)) :
    (n * 10 ^ e : ℚ) ≤ 2 ^ (-1075 : ℤ) := by
  have hself : (n : ℚ) ≤ 2 ^ ((n.log2 : ℤ) + 1) := by
    rw [show (n.log2 : ℤ) + 1 = ((n.log2 + 1 : ℕ) : ℤ) by omega, zpow_natCast]
    exact_mod_cast Nat.lt_log2_self.le
  have hpower : (10 : ℚ) ^ e ≤ 2 ^ e := by
    obtain ⟨k, rfl⟩ : ∃ k : ℕ, e = -k := ⟨(-e).toNat, by omega⟩
    rw [zpow_neg, zpow_neg, zpow_natCast, zpow_natCast]
    exact inv_anti₀ (by positivity) (pow_le_pow_left₀ (by norm_num) (by norm_num) k)
  calc (n * 10 ^ e : ℚ) ≤ 2 ^ ((n.log2 : ℤ) + 1) * 2 ^ e :=
        mul_le_mul hself hpower (zpow_pos (by norm_num) _).le (zpow_pos (by norm_num) _).le
    _ = 2 ^ ((n.log2 : ℤ) + 1 + e) := (two_zpow_add _ _).symm
    _ ≤ 2 ^ (-1075 : ℤ) := zpow_le_zpow_right₀ (by norm_num) (by omega)

/-- A number written in decimal is rounded once: it is a product or a quotient of integers. -/
theorem rounds_ofScientific (n : ℕ) {e : ℤ} (hsmall : (n * 10 ^ e : ℚ) < 2 ^ (1023 : ℤ)) :
    ∃ m' e', ofUnpacked (UnpackedFloat.ofScientific Format.binary64 n e) = .finite false m' e' ∧
      Rounds (n * 10 ^ e) m' e' := by
  unfold UnpackedFloat.ofScientific
  have hexponentBits : (2 : ℤ) ^ Format.binary64.exponentBits = 2048 := by decide
  rw [hexponentBits]
  by_cases hn : n = 0
  · rw [dif_pos hn, hn, Nat.cast_zero, zero_mul]
    exact ⟨0, -1074, rfl, rounds_zero le_rfl (zpow_pos (by norm_num) _).le⟩
  have hone : (1 : ℚ) ≤ n := by exact_mod_cast Nat.one_le_iff_ne_zero.2 hn
  have hpos : (0 : ℚ) < 10 ^ e := zpow_pos (by norm_num) e
  rw [dif_neg hn]
  have hupper : ¬ e > 2048 := by
    intro hlarge
    have hpower : (2 : ℚ) ^ (1023 : ℤ) ≤ 10 ^ e := by
      calc (2 : ℚ) ^ (1023 : ℤ) ≤ 2 ^ e := zpow_le_zpow_right₀ (by norm_num) (by omega)
        _ ≤ 10 ^ e := zpow_le_zpow_left₀ (by omega) (by norm_num) (by norm_num)
    have : (10 ^ e : ℚ) ≤ n * 10 ^ e := le_mul_of_one_le_left hpos.le hone
    linarith
  rw [if_neg hupper]
  split
  · rename_i hlow
    exact ⟨0, -1074, rfl, rounds_zero (by positivity) (scientific_le n hlow)⟩
  split
  · rename_i hnonneg
    obtain ⟨k, rfl⟩ : ∃ k : ℕ, e = k := ⟨e.toNat, by omega⟩
    have hshift : n <<< 53 = n * 2 ^ 53 := Nat.shiftLeft_eq ..
    have hvalue : (n * 10 ^ (k : ℤ) : ℚ) =
        (n <<< 53 : ℕ) * 2 ^ (-53 : ℤ) * ((10 ^ k : ℕ) * 2 ^ (0 : ℤ)) := by
      rw [hshift, zpow_natCast]
      push_cast
      ring
    rw [hvalue]
    refine rounds_mul _ _ _ _ ?_
    show 2 ^ 52 ≤ n <<< 53 * 10 ^ k
    calc 2 ^ 52 ≤ 1 * 2 ^ 53 * 1 := by decide
      _ ≤ n <<< 53 * 10 ^ k := by
        rw [hshift]
        exact Nat.mul_le_mul (Nat.mul_le_mul_right _ (Nat.pos_of_ne_zero hn)) (Nat.pow_pos (by decide))
  · rename_i hneg
    obtain ⟨k, rfl⟩ : ∃ k : ℕ, e = -k := ⟨(-e).toNat, by omega⟩
    have hvalue : (n * 10 ^ (-(k : ℤ)) : ℚ) =
        n * 2 ^ (0 : ℤ) / ((10 ^ (- -(k : ℤ)).toNat : ℕ) * 2 ^ (0 : ℤ)) := by
      rw [neg_neg, Int.toNat_natCast, zpow_neg, zpow_natCast]
      push_cast
      norm_num
      rfl
    rw [hvalue]
    exact rounds_div _ _ _ _

/-! ### Floats -/

theorem exponent_le_of_ofFloat {negative : Bool} (h : ofFloat x = .finite negative m e) : e ≤ 971 := by
  unfold ofFloat at h
  simp only [Nat.pow_eq] at h
  split_ifs at h <;> cases h <;> omega

/-- A result that is rounded and small enough is read back. -/
theorem rounds_pack {u : UnpackedFloat} {q : ℚ} (hq : q < 2 ^ (1023 : ℤ))
    (h : ∃ m e, ofUnpacked u = .finite false m e ∧ Rounds q m e) :
    ∃ m e, ofFloat ⟨Float.Model.pack u⟩ = .finite false m e ∧ Rounds q m e := by
  obtain ⟨m, e, hu, hrounds⟩ := h
  exact ⟨m, e, ofFloat_pack hu (hrounds.canonical false) (hrounds.exponent_le hq), hrounds⟩

/-- The sign of a float can be changed. -/
theorem ofFloat_neg {negative : Bool} (h : ofFloat x = .finite negative m e) :
    ofFloat (-x) = .finite (!negative) m e := by
  have hcanonical := h ▸ canonical_ofFloat x
  have hunpack : ofUnpacked (UnpackedFloat.neg x.toModel.unpack) = .finite (!negative) m e := by
    rw [ofFloat_eq] at h
    cases hu : x.toModel.unpack with
    | notANumber | infinity _ =>
      rw [hu] at h
      cases h
    | zero sign | finite sign _ _ _ =>
      rw [hu] at h
      cases sign <;> cases h <;> rfl
  exact ofFloat_pack hunpack hcanonical (exponent_le_of_ofFloat h)

theorem unpack_of_ofFloat (h : ofFloat x = .finite false m e) (hm : 0 < m) :
    x.toModel.unpack = .finite .positive m e hm := by
  rw [ofFloat_eq] at h
  cases hu : x.toModel.unpack with
  | notANumber | infinity _ =>
    rw [hu] at h
    cases h
  | zero sign =>
    rw [hu] at h
    obtain ⟨-, rfl, -⟩ := Binary64.finite.inj h
    exact absurd hm (Nat.lt_irrefl 0)
  | finite sign _ _ _ =>
    rw [hu] at h
    cases sign <;> cases h
    rfl

theorem rounds_float_mul (hx : ofFloat x = .finite false m₁ e₁) (hy : ofFloat y = .finite false m₂ e₂)
    (hbits : 2 ^ 52 ≤ m₁ * m₂) (hsmall : (m₁ * 2 ^ e₁ * (m₂ * 2 ^ e₂) : ℚ) < 2 ^ (1023 : ℤ)) :
    ∃ m e, ofFloat (x * y) = .finite false m e ∧ Rounds (m₁ * 2 ^ e₁ * (m₂ * 2 ^ e₂)) m e := by
  have h₁ : 0 < m₁ := Nat.pos_of_ne_zero fun h => by simp [h] at hbits
  have h₂ : 0 < m₂ := Nat.pos_of_ne_zero fun h => by simp [h] at hbits
  have hmul := rounds_mul e₁ e₂ h₁ h₂ hbits
  rw [← unpack_of_ofFloat hx h₁, ← unpack_of_ofFloat hy h₂] at hmul
  exact rounds_pack hsmall hmul

theorem rounds_float_div (hx : ofFloat x = .finite false m₁ e₁) (hy : ofFloat y = .finite false m₂ e₂)
    (h₁ : 0 < m₁) (h₂ : 0 < m₂) (hsmall : (m₁ * 2 ^ e₁ / (m₂ * 2 ^ e₂) : ℚ) < 2 ^ (1023 : ℤ)) :
    ∃ m e, ofFloat (x / y) = .finite false m e ∧ Rounds (m₁ * 2 ^ e₁ / (m₂ * 2 ^ e₂)) m e := by
  have hdiv := rounds_div e₁ e₂ h₁ h₂
  rw [← unpack_of_ofFloat hx h₁, ← unpack_of_ofFloat hy h₂] at hdiv
  exact rounds_pack hsmall hdiv

/-- A natural number of at most 53 bits is a float. -/
theorem ofFloat_toFloat {n : ℕ} (hn : n ≠ 0) (hword : n < 2 ^ 53) :
    ∃ m e, ofFloat n.toUInt64.toFloat = .finite false m e ∧ 2 ^ 52 ≤ m ∧ (m * 2 ^ e : ℚ) = n := by
  have hto : n.toUInt64.toNat = n := by
    show n % 2 ^ 64 = n
    exact Nat.mod_eq_of_lt (by omega)
  have hcast : (n : ℚ) < 2 ^ (53 : ℤ) := by exact_mod_cast hword
  have hsmall : (n : ℚ) < 2 ^ (1023 : ℤ) :=
    hcast.trans_le (zpow_le_zpow_right₀ (by norm_num) (by norm_num))
  have hround := rounds_ofNat hn
  obtain ⟨m, e, hfloat, hrounds⟩ := rounds_pack hsmall hround
  have hvalue : (m * 2 ^ e : ℚ) = n :=
    hrounds.exact (k := n) (f := 0) (by rw [abs_of_nonneg (by omega)]; omega) (by decide) (by simp)
  refine ⟨m, e, ?_, ?_, hvalue⟩
  · rw [← hfloat]
    show ofFloat ⟨Float.Model.pack (UnpackedFloat.ofNat _ n.toUInt64.toNat)⟩ = _
    rw [hto]
  · obtain ⟨hm, -, hnormal⟩ := hrounds.canonical false
    refine hnormal.resolve_left ?_
    rintro rfl
    have hone : (1 : ℚ) ≤ n := by exact_mod_cast Nat.one_le_iff_ne_zero.2 hn
    have hm' : (m : ℚ) < 2 ^ (53 : ℤ) := by exact_mod_cast hm
    have hless : (m * 2 ^ (-1074 : ℤ) : ℚ) < 2 ^ (53 : ℤ) * 2 ^ (-1074 : ℤ) :=
      mul_lt_mul_of_pos_right hm' (zpow_pos (by norm_num) _)
    have hpower : (2 : ℚ) ^ (53 : ℤ) * 2 ^ (-1074 : ℤ) ≤ 2 ^ (0 : ℤ) := by
      rw [← two_zpow_add]
      exact zpow_le_zpow_right₀ (by norm_num) (by norm_num)
    rw [zpow_zero] at hpower
    linarith

/-- The powers of ten that are kept as floats are exact. -/
theorem ofFloat_powersOfTen : ∀ k : Fin 23,
    ofFloat Float.exactlyRepresentablePowersOfTen[k] =
      .finite false (10 ^ k.1 * 2 ^ 52 / 2 ^ (10 ^ k.1).log2) ((10 ^ k.1).log2 - 52) ∧
    10 ^ k.1 * 2 ^ 52 / 2 ^ (10 ^ k.1).log2 * 2 ^ (10 ^ k.1).log2 = 10 ^ k.1 * 2 ^ 52 := by
  decide +kernel

/-- The number that a decimal stands for. -/
def decimalValue (n : ℕ) (below : Bool) (k : ℕ) : ℚ :=
  if below then n / 10 ^ k else n * 10 ^ k

theorem decimalValue_zero (below : Bool) (k : ℕ) : decimalValue 0 below k = 0 := by
  cases below <;> simp [decimalValue]

theorem exists_powersOfTen {k : ℕ} (hk : k < 23) : ∃ m e,
    ofFloat Float.exactlyRepresentablePowersOfTen[k] = .finite false m e ∧ 0 < m ∧
      (m * 2 ^ e : ℚ) = 10 ^ k := by
  obtain ⟨htable, hexact⟩ := ofFloat_powersOfTen ⟨k, hk⟩
  dsimp only at htable hexact
  refine ⟨_, _, htable, ?_, ?_⟩
  · refine Nat.pos_of_ne_zero fun hzero => ?_
    rw [hzero, Nat.zero_mul] at hexact
    exact (Nat.mul_pos (Nat.pow_pos (by decide)) (Nat.two_pow_pos 52)).ne hexact
  · generalize 10 ^ k * 2 ^ 52 / 2 ^ (10 ^ k).log2 = m at hexact ⊢
    have hexact' : (m * 2 ^ (10 ^ k).log2 : ℚ) = 10 ^ k * 2 ^ 52 := by exact_mod_cast hexact
    rw [zpow_sub₀ (by norm_num), zpow_natCast, mul_div_assoc', hexact']
    exact mul_div_cancel_right₀ _ (by norm_num)

theorem ofFloat_zero_powersOfTen : ∀ k : Fin 23,
    ofFloat ((0 : ℕ).toUInt64.toFloat / Float.exactlyRepresentablePowersOfTen[k]) =
      .finite false 0 (-1074) ∧
    ofFloat ((0 : ℕ).toUInt64.toFloat * Float.exactlyRepresentablePowersOfTen[k]) =
      .finite false 0 (-1074) := by
  decide +kernel

/-- Decimals are rounded. -/
theorem rounds_float_ofScientific (n : ℕ) (below : Bool) (k : ℕ)
    (hsmall : decimalValue n below k < 2 ^ (1023 : ℤ)) :
    ∃ m e, ofFloat (Float.ofScientific n below k) = .finite false m e ∧
      Rounds (decimalValue n below k) m e := by
  unfold Float.ofScientific
  split
  · rename_i hfast
    obtain ⟨hword, hk⟩ := hfast
    by_cases hn : n = 0
    · subst hn
      rw [decimalValue_zero]
      have hzero := ofFloat_zero_powersOfTen ⟨k, by omega⟩
      cases below with
      | true => exact ⟨0, -1074, hzero.1, rounds_zero le_rfl (zpow_pos (by norm_num) _).le⟩
      | false => exact ⟨0, -1074, hzero.2, rounds_zero le_rfl (zpow_pos (by norm_num) _).le⟩
    · obtain ⟨m₁, e₁, hfloat, hlow, hvalue⟩ := ofFloat_toFloat hn hword
      obtain ⟨m₂, e₂, htable, hpos, hpower⟩ := exists_powersOfTen (show k < 23 by omega)
      cases below with
      | true =>
        have hquotient : decimalValue n true k = m₁ * 2 ^ e₁ / (m₂ * 2 ^ e₂) := by
          rw [hvalue, hpower]
          rfl
        rw [hquotient] at hsmall ⊢
        exact rounds_float_div hfloat htable (by omega) hpos hsmall
      | false =>
        have hproduct : decimalValue n false k = m₁ * 2 ^ e₁ * (m₂ * 2 ^ e₂) := by
          rw [hvalue, hpower]
          rfl
        rw [hproduct] at hsmall ⊢
        exact rounds_float_mul hfloat htable (hlow.trans (Nat.le_mul_of_pos_right _ hpos)) hsmall
  · cases below with
    | true =>
      have hexponent : decimalValue n true k = n * 10 ^ Int.negOfNat k := by
        rw [Int.negOfNat_eq, zpow_neg, Int.ofNat_eq_natCast, zpow_natCast]
        exact div_eq_mul_inv ..
      rw [hexponent] at hsmall ⊢
      exact rounds_pack hsmall (rounds_ofScientific n hsmall)
    | false =>
      have hexponent : decimalValue n false k = n * 10 ^ Int.ofNat k := by
        rw [Int.ofNat_eq_natCast, zpow_natCast]
        rfl
      rw [hexponent] at hsmall ⊢
      exact rounds_pack hsmall (rounds_ofScientific n hsmall)

end Binary64

/-! ### The nearest float -/

namespace Binary64

/-- The number that a significand with a sign and an exponent stands for. -/
def valueOf (negative : Bool) (significand : ℕ) (exponent : ℤ) : ℚ :=
  signed negative significand * 2 ^ exponent

/-- The number that a finite value stands for. -/
def value? : Binary64 → Option ℚ
  | .nan | .infinite _ => none
  | .finite negative significand exponent => some (valueOf negative significand exponent)

end Binary64

/-- The float nearest to a number. If another one is equally near, the significand is even. -/
def Nearest (x : Float) (q : ℚ) : Prop :=
  ∃ negative m e, Binary64.ofFloat x = .finite negative m e ∧
    ∀ y v, (Binary64.ofFloat y).value? = some v →
      |q - Binary64.valueOf negative m e| < |q - v| ∨
        |q - Binary64.valueOf negative m e| = |q - v| ∧
          (v = Binary64.valueOf negative m e ∨ Even m)

variable {x : Float} {q : ℚ}

theorem nearest_of_rounds {negative : Bool} {m : ℕ} {e : ℤ}
    (hx : Binary64.ofFloat x = .finite negative m e) (h : Binary64.Rounds q m e) {p : ℚ}
    (hp : p = if negative then -q else q) : Nearest x p := by
  subst hp
  refine ⟨negative, m, e, hx, fun y v hv => ?_⟩
  obtain ⟨negative', m', e', hy⟩ : ∃ negative m e, Binary64.ofFloat y = .finite negative m e := by
    cases hy : Binary64.ofFloat y with
    | nan | infinite _ =>
      rw [hy] at hv
      cases hv
    | finite negative m e => exact ⟨_, _, _, rfl⟩
  have hcanonical := hy ▸ Binary64.canonical_ofFloat y
  rw [hy] at hv
  cases hv
  obtain ⟨hm', he', -⟩ := hcanonical
  -- the number and the float it is rounded to change their signs together
  have hother : ((Binary64.signed (negative ^^ negative') m' : ℤ) * 2 ^ e' : ℚ) =
      (if negative then -1 else 1) * Binary64.valueOf negative' m' e' := by
    unfold Binary64.valueOf Binary64.signed
    cases negative <;> cases negative' <;> simp
  have hself : (m * 2 ^ e : ℚ) =
      (if negative then -1 else 1) * Binary64.valueOf negative m e := by
    unfold Binary64.valueOf Binary64.signed
    cases negative <;> simp
  have hbound : |Binary64.signed (negative ^^ negative') m'| < 2 ^ 53 := by
    unfold Binary64.signed
    cases negative <;> cases negative' <;> simp <;> omega
  have hflip (a : ℚ) : |(if negative then -q else q) - a| = |q - (if negative then -1 else 1) * a| := by
    cases negative with
    | false => simp
    | true =>
      rw [← abs_neg, if_pos rfl, if_pos rfl]
      congr 1
      ring
  rw [hflip, hflip, ← hself, ← hother]
  refine (h.nearest hbound he').imp_right (And.imp_right (Or.imp_left fun heq => ?_))
  rw [hother, hself] at heq
  exact mul_left_cancel₀ (by cases negative <;> norm_num) heq

/-- Decimals are converted to the nearest float. -/
theorem nearest_ofScientific (n : ℕ) (below : Bool) (k : ℕ)
    (hsmall : Binary64.decimalValue n below k < 2 ^ (1023 : ℤ)) :
    Nearest (Float.ofScientific n below k) (Binary64.decimalValue n below k) := by
  obtain ⟨m, e, hfloat, hrounds⟩ := Binary64.rounds_float_ofScientific n below k hsmall
  exact nearest_of_rounds hfloat hrounds (if_neg Bool.false_ne_true).symm

/-- So are decimals with a sign in front. -/
theorem nearest_neg_ofScientific (n : ℕ) (below : Bool) (k : ℕ)
    (hsmall : Binary64.decimalValue n below k < 2 ^ (1023 : ℤ)) :
    Nearest (-Float.ofScientific n below k) (-Binary64.decimalValue n below k) := by
  obtain ⟨m, e, hfloat, hrounds⟩ := Binary64.rounds_float_ofScientific n below k hsmall
  exact nearest_of_rounds (Binary64.ofFloat_neg hfloat) hrounds (if_pos rfl).symm

/-- Integers are converted to the nearest float. -/
theorem nearest_ofInt {n : ℤ} (hsmall : (|n| : ℚ) < 2 ^ (1023 : ℤ)) : Nearest (Float.ofInt n) n := by
  have hvalue (k : ℕ) : Binary64.decimalValue k false 0 = k := by simp [Binary64.decimalValue]
  cases n with
  | ofNat k =>
    have hk : Binary64.decimalValue k false 0 < 2 ^ (1023 : ℤ) := by
      rw [hvalue]
      simpa using hsmall
    have hnearest := nearest_ofScientific k false 0 hk
    rw [hvalue] at hnearest
    exact hnearest
  | negSucc k =>
    have hk : Binary64.decimalValue (k + 1) false 0 < 2 ^ (1023 : ℤ) := by
      rw [hvalue]
      rw [Int.cast_negSucc, abs_neg, abs_of_nonneg (Nat.cast_nonneg _)] at hsmall
      exact hsmall
    have hnearest := nearest_neg_ofScientific (k + 1) false 0 hk
    rw [hvalue, ← Int.cast_negSucc] at hnearest
    exact hnearest

end Workings

import Workings.Proofs.Equality

/-!
# Cutting significands

The exact result of an operation on floats has more bits than a float. Below the significand it keeps a
bit for the half and one for whatever is less, so that no number is lost (`Holds`) while the significand
is cut to 53 bits. What remains is the natural number nearest to the result on the scale of the last bit
(`RoundsTo`), and no float on a finer scale comes as near, since there all floats are smaller
(`RoundsTo.nearest_scaled`). So what is rounded is the nearest float (`Binary64.rounds_roundWithAccuracy`),
and it can be packed into a word unless it is too large (`Binary64.ofFloat_pack`).
-/

namespace Workings

open Float.Model Float.Model.UnpackedFloat

/-! ### Rounding to a natural number -/

/-- The natural number nearest to a number, and the even one of two. -/
structure RoundsTo (x : ℚ) (n : ℕ) : Prop where
  close : |x - n| ≤ 1 / 2
  tie : |x - n| = 1 / 2 → Even n

theorem RoundsTo.nearest {x : ℚ} {n : ℕ} (h : RoundsTo x n) (k : ℤ) :
    |x - n| < |x - k| ∨ |x - n| = |x - k| ∧ ((k : ℚ) = n ∨ Even n) := by
  by_cases hk : k = n
  · refine .inr ⟨by rw [hk, Int.cast_natCast], .inl (by rw [hk, Int.cast_natCast])⟩
  · have hone : (1 : ℚ) ≤ |(k : ℚ) - n| := by
      have hint : 1 ≤ |k - n| := Int.one_le_abs (sub_ne_zero.2 hk)
      exact_mod_cast hint
    have htriangle : |(k : ℚ) - n| ≤ |x - n| + |x - k| := by
      have := abs_sub_le (k : ℚ) x n
      rw [abs_sub_comm (k : ℚ) x] at this
      linarith
    have hclose := h.close
    rcases lt_or_eq_of_le (show |x - n| ≤ |x - k| by linarith) with hlt | heq
    · exact .inl hlt
    · exact .inr ⟨heq, .inr (h.tie (by linarith))⟩

/-- A significand with 53 bits, or on the finest scale, rounds a number as well as a significand on any
scale does. -/
theorem RoundsTo.nearest_scaled {x : ℚ} {n : ℕ} {t : ℤ} (h : RoundsTo (x / 2 ^ t) n)
    (ht : t = -1074 ∨ 2 ^ (52 + t) ≤ x) {k f : ℤ} (hk : |k| < 2 ^ 53) (hf : -1074 ≤ f) :
    |x - n * 2 ^ t| < |x - k * 2 ^ f| ∨
      |x - n * 2 ^ t| = |x - k * 2 ^ f| ∧ ((k * 2 ^ f : ℚ) = n * 2 ^ t ∨ Even n) := by
  have hpos : (0 : ℚ) < 2 ^ t := zpow_pos (by norm_num) t
  have hscale (a : ℚ) : |x - a * 2 ^ t| = |x / 2 ^ t - a| * 2 ^ t := by
    rw [← abs_of_pos hpos, ← abs_mul, abs_of_pos hpos, sub_mul, div_mul_cancel₀ _ hpos.ne']
  rcases le_or_gt t f with htf | htf
  · -- the other one is a multiple of the last bit
    obtain ⟨d, hd⟩ : ∃ d : ℕ, f = d + t := ⟨(f - t).toNat, by omega⟩
    have hother : (k * 2 ^ f : ℚ) = (k * 2 ^ d : ℤ) * 2 ^ t := by
      rw [hd, zpow_add₀ (by norm_num), zpow_natCast]
      push_cast
      ring
    rw [hother, hscale, hscale]
    rcases h.nearest (k * 2 ^ d) with hlt | ⟨heq, hcases⟩
    · exact .inl (mul_lt_mul_of_pos_right hlt hpos)
    · exact .inr ⟨by rw [heq], hcases.imp_left fun heq => by rw [heq]⟩
  · -- the other one is smaller than the least number with 53 bits on this scale
    have hx : (2 ^ 52 : ℤ) * 2 ^ t ≤ x := by
      refine le_trans (le_of_eq ?_) (ht.resolve_left (by omega))
      rw [zpow_add₀ (by norm_num)]
      norm_num
    have hsmall : (k * 2 ^ f : ℚ) < (2 ^ 52 : ℤ) * 2 ^ t := by
      have hk' : (k : ℚ) < 2 ^ 53 := by exact_mod_cast lt_of_le_of_lt (le_abs_self k) hk
      calc (k * 2 ^ f : ℚ) < 2 ^ 53 * 2 ^ f := mul_lt_mul_of_pos_right hk' (zpow_pos (by norm_num) f)
        _ = (2 ^ 52 : ℤ) * 2 ^ (f + 1) := by
          rw [zpow_add₀ (by norm_num)]
          push_cast
          ring
        _ ≤ (2 ^ 52 : ℤ) * 2 ^ t := by
          refine mul_le_mul_of_nonneg_left (zpow_le_zpow_right₀ (by norm_num) (by omega)) ?_
          norm_num
    have hleast : |x - n * 2 ^ t| ≤ |x - (2 ^ 52 : ℤ) * 2 ^ t| := by
      rw [hscale, hscale]
      refine mul_le_mul_of_nonneg_right ?_ hpos.le
      rcases h.nearest (2 ^ 52) with hlt | ⟨heq, -⟩
      · exact hlt.le
      · exact heq.le
    refine .inl (lt_of_le_of_lt hleast ?_)
    rw [abs_of_nonneg (by linarith), abs_of_nonneg (by linarith)]
    linarith

/-! ### The bits below the significand -/

/-- A significand, the bit for the half, and the bit for whatever is less hold a number. -/
def Holds (em : ExtendedMantissa) (x : ℚ) : Prop :=
  if em.roundBit then
    if em.stickyBit then (em.mantissa : ℚ) + 1 / 2 < x ∧ x < em.mantissa + 1 else x = em.mantissa + 1 / 2
  else
    if em.stickyBit then (em.mantissa : ℚ) < x ∧ x < em.mantissa + 1 / 2 else x = em.mantissa

namespace Holds

variable {em : ExtendedMantissa} {x : ℚ}

theorem between (h : Holds em x) : (em.mantissa : ℚ) ≤ x ∧ x < em.mantissa + 1 := by
  obtain ⟨m, round, sticky⟩ := em
  unfold Holds at h
  cases round <;> cases sticky <;> simp only [if_true, if_false, Bool.false_eq_true] at h ⊢ <;>
    constructor <;> linarith

theorem shiftRightOne (h : Holds em x) : Holds em.shiftRightOne (x / 2) := by
  obtain ⟨m, round, sticky⟩ := em
  have hbits : (m : ℚ) = 2 * (m / 2 : ℕ) + (m % 2 : ℕ) := by exact_mod_cast (Nat.div_add_mod m 2).symm
  unfold Holds ExtendedMantissa.shiftRightOne at *
  rcases Nat.mod_two_eq_zero_or_one m with hm | hm <;> rw [hm] at hbits <;> cases round <;>
    cases sticky <;> simp [hm] at h hbits ⊢ <;> (try constructor) <;> linarith

theorem shiftRight (h : Holds em x) (n : ℕ) : Holds (em >>> n) (x / 2 ^ n) := by
  change Holds (n.repeat ExtendedMantissa.shiftRightOne em) _
  induction n with
  | zero => simpa [Nat.repeat] using h
  | succ n ih =>
    rw [Nat.repeat, pow_succ, ← div_div]
    exact ih.shiftRightOne

theorem roundsTo (h : Holds em x) : RoundsTo x em.roundedMantissa := by
  obtain ⟨m, round, sticky⟩ := em
  unfold Holds at h
  cases round <;> cases sticky <;>
    simp only [if_true, if_false, Bool.false_eq_true] at h <;>
    simp only [ExtendedMantissa.roundedMantissa, ExtendedMantissa.accuracy, Accuracy.roundToNearestEven]
  · subst h
    exact ⟨by simp, fun h => by simp at h⟩
  · have habs : |x - m| < 1 / 2 := abs_lt.2 ⟨by linarith, by linarith⟩
    exact ⟨habs.le, fun h => absurd h habs.ne⟩
  · subst h
    have heven : Even (m + m % 2) := by
      rw [Nat.even_iff]
      omega
    refine ⟨?_, fun _ => heven⟩
    rcases Nat.mod_two_eq_zero_or_one m with hm | hm <;> rw [hm] <;> push_cast <;> rw [abs_le] <;>
      constructor <;> linarith
  · have habs : |x - ((m + 1 : ℕ) : ℚ)| < 1 / 2 := by
      push_cast
      exact abs_lt.2 ⟨by linarith, by linarith⟩
    exact ⟨habs.le, fun h => absurd h habs.ne⟩

end Holds

theorem holds_exact (m : ℕ) : Holds (.ofMantissaAndAccuracy m .exact) m := by
  simp [Holds, ExtendedMantissa.ofMantissaAndAccuracy]

/-- What is left over by a division lies below the quotient. -/
theorem holds_fraction (m : ℕ) {d : ℕ} (hd : 0 < d) :
    Holds (.ofMantissaAndAccuracy (m / d) (accuracyOfFraction (m % d) d)) (m / d) := by
  have hpos : (0 : ℚ) < d := by exact_mod_cast hd
  have hdivision : (m / d : ℚ) = (m / d : ℕ) + (m % d : ℕ) / d := by
    rw [eq_comm, ← eq_sub_iff_add_eq', div_eq_iff hpos.ne', sub_mul, div_mul_cancel₀ _ hpos.ne']
    have : (m : ℚ) = d * (m / d : ℕ) + (m % d : ℕ) := by exact_mod_cast (Nat.div_add_mod m d).symm
    linarith
  have hlt : ((m % d : ℕ) : ℚ) < d := by exact_mod_cast Nat.mod_lt m hd
  have hnonneg : (0 : ℚ) ≤ (m % d : ℕ) := by positivity
  rw [hdivision]
  generalize m % d = r at hlt hnonneg ⊢
  unfold accuracyOfFraction
  split
  · rename_i hzero
    subst hzero
    simpa using holds_exact (m / d)
  · rename_i hzero
    have hr : (0 : ℚ) < r := by exact_mod_cast Nat.pos_of_ne_zero hzero
    have hfraction : (0 : ℚ) < r / d ∧ (r / d : ℚ) < 1 :=
      ⟨div_pos hr hpos, (div_lt_one hpos).2 hlt⟩
    cases hcompare : compare (2 * r) d with
    | lt =>
      have hhalf : (2 * r : ℚ) < d := by exact_mod_cast Nat.compare_eq_lt.1 hcompare
      have : (r / d : ℚ) < 1 / 2 := by
        rw [div_lt_div_iff₀ hpos (by norm_num)]
        linarith
      show ((m / d : ℕ) : ℚ) < (m / d : ℕ) + r / d ∧ ((m / d : ℕ) : ℚ) + r / d < (m / d : ℕ) + 1 / 2
      exact ⟨by linarith, by linarith⟩
    | eq =>
      have hhalf : (2 * r : ℚ) = d := by exact_mod_cast Nat.compare_eq_eq.1 hcompare
      have : (r / d : ℚ) = 1 / 2 := by
        rw [div_eq_div_iff hpos.ne' (by norm_num)]
        linarith
      show ((m / d : ℕ) : ℚ) + r / d = (m / d : ℕ) + 1 / 2
      rw [this]
    | gt =>
      have hhalf : (d : ℚ) < 2 * r := by exact_mod_cast Nat.compare_eq_gt.1 hcompare
      have : (1 / 2 : ℚ) < r / d := by
        rw [div_lt_div_iff₀ (by norm_num) hpos]
        linarith
      show ((m / d : ℕ) : ℚ) + 1 / 2 < (m / d : ℕ) + r / d ∧ ((m / d : ℕ) : ℚ) + r / d < (m / d : ℕ) + 1
      exact ⟨by linarith, by linarith⟩

/-! ### Rounding to a float -/

theorem two_zpow_add (a b : ℤ) : (2 : ℚ) ^ (a + b) = 2 ^ a * 2 ^ b :=
  zpow_add₀ (by norm_num) a b

theorem mantissa_ofMantissaAndAccuracy (m : ℕ) (accuracy : Accuracy) :
    (ExtendedMantissa.ofMantissaAndAccuracy m accuracy).mantissa = m := by
  cases accuracy with
  | exact => rfl
  | inexact order => cases order <;> rfl

/-- Cutting a significand to 53 bits keeps the number that it holds, on the scale of the last bit. -/
theorem holds_shiftToTargetExponent {m : ℕ} {e t : ℤ} {accuracy : Accuracy} {x : ℚ}
    (h : Holds (.ofMantissaAndAccuracy m accuracy) x) (ht : t = max (m.log2 + e - 52) (-1074))
    (he : e ≤ t) :
    Holds (shiftToTargetExponent Format.binary64 m e accuracy).1 (x * 2 ^ e / 2 ^ t) ∧
      (shiftToTargetExponent Format.binary64 m e accuracy).2 = t := by
  obtain ⟨d, hd⟩ : ∃ d : ℕ, t = d + e := ⟨(t - e).toNat, by omega⟩
  rw [shiftToTargetExponent_eq_shiftRight accuracy d (by omega)]
  have hscale : x * 2 ^ e / 2 ^ t = x / 2 ^ d := by
    rw [hd, two_zpow_add, zpow_natCast, mul_div_mul_right _ _ (zpow_pos (by norm_num) e).ne']
  rw [hscale]
  exact ⟨h.shiftRight d, by omega⟩

/-- A significand with at most 53 bits is not cut. -/
theorem shiftToTargetExponent_small {n : ℕ} {t : ℤ} (hn : n < 2 ^ 53) (ht : -1074 ≤ t) :
    shiftToTargetExponent Format.binary64 n t .exact = (⟨n, false, false⟩, t) := by
  have hlog : n.log2 ≤ 52 := by
    by_cases hzero : n = 0
    · rw [hzero]
      decide
    · have := (Nat.log2_lt hzero).2 hn
      omega
  rw [shiftToTargetExponent_eq_shiftRight .exact 0 (by omega), Nat.cast_zero, add_zero]
  rfl

/-- The power of two that rounding up can lead to loses a bit. -/
theorem shiftToTargetExponent_carry {t : ℤ} (ht : -1074 ≤ t) :
    shiftToTargetExponent Format.binary64 (2 ^ 53) t .exact = (⟨2 ^ 52, false, false⟩, t + 1) := by
  rw [shiftToTargetExponent_eq_shiftRight .exact 1 (by rw [Nat.log2_two_pow]; omega)]
  rfl

namespace Binary64

/-- A significand and an exponent stand for the float nearest to a number that is not negative. The
numbers they are compared with include all finite floats. -/
structure Rounds (x : ℚ) (m : ℕ) (e : ℤ) : Prop where
  canonical (negative : Bool) : (finite negative m e).Canonical
  nearest {k f : ℤ} : |k| < 2 ^ 53 → -1074 ≤ f →
    |x - m * 2 ^ e| < |x - k * 2 ^ f| ∨
      |x - m * 2 ^ e| = |x - k * 2 ^ f| ∧ ((k * 2 ^ f : ℚ) = m * 2 ^ e ∨ Even m)

/-- The natural number nearest to a value on the scale of the last of 53 bits stands for the nearest
float. If rounding leads to a 54th bit, it is cut off. -/
theorem rounds_of_roundsTo {sign : Sign} {x : ℚ} {n : ℕ} {t : ℤ} (h : RoundsTo (x / 2 ^ t) n)
    (ht : -1074 ≤ t) (hx : t = -1074 ∨ 2 ^ (52 + t) ≤ x) (hlow : t = -1074 ∨ 2 ^ 52 ≤ n)
    (hhigh : n ≤ 2 ^ 53) :
    ∃ m e, ofUnpacked
      (let (em, e) := shiftToTargetExponent Format.binary64 n t .exact
      if hm : em.mantissa = 0 then .zero sign
      else .finite sign em.mantissa e (Nat.pos_of_ne_zero hm)) = .finite (sign == .negative) m e ∧
        Rounds x m e := by
  rcases Nat.lt_or_eq_of_le hhigh with hlt | rfl
  · rw [shiftToTargetExponent_small hlt ht]
    by_cases hzero : n = 0
    · subst hzero
      obtain rfl : t = -1074 := hlow.resolve_right (by decide)
      exact ⟨0, -1074, rfl, fun _ => ⟨by decide, by decide, .inl rfl⟩, h.nearest_scaled hx⟩
    · refine ⟨n, t, ?_, fun _ => ⟨hlt, ht, hlow⟩, h.nearest_scaled hx⟩
      dsimp only
      rw [dif_neg hzero]
      rfl
  · rw [shiftToTargetExponent_carry ht]
    have hvalue : ((2 ^ 53 : ℕ) * 2 ^ t : ℚ) = (2 ^ 52 : ℕ) * 2 ^ (t + 1) := by
      rw [two_zpow_add]
      push_cast
      ring
    refine ⟨2 ^ 52, t + 1, rfl, fun _ => ⟨by decide, by omega, .inr (by decide)⟩, fun {k f} hk hf => ?_⟩
    rw [← hvalue]
    exact (h.nearest_scaled hx hk hf).imp_right (And.imp_right fun _ => .inr (by decide))

/-- Rounding a significand, of which enough bits are known, gives the nearest float. -/
theorem rounds_roundWithAccuracy (sign : Sign) {m : ℕ} {e : ℤ} {accuracy : Accuracy} {x : ℚ}
    (h : Holds (.ofMantissaAndAccuracy m accuracy) x) (hbits : e ≤ -1074 ∨ 2 ^ 52 ≤ m) :
    ∃ m' e', ofUnpacked (roundWithAccuracy Format.binary64 sign m e accuracy) =
      .finite (sign == .negative) m' e' ∧ Rounds (x * 2 ^ e) m' e' := by
  obtain ⟨t, ht⟩ : ∃ t : ℤ, t = max (m.log2 + e - 52) (-1074) := ⟨_, rfl⟩
  have hlog : 2 ^ 52 ≤ m → 52 ≤ m.log2 := fun hm => (Nat.le_log2 (by omega)).2 hm
  obtain ⟨hholds, hexponent⟩ := holds_shiftToTargetExponent h ht (by omega)
  have hpos : (0 : ℚ) < 2 ^ t := zpow_pos (by norm_num) t
  have hbetween := h.between
  rw [mantissa_ofMantissaAndAccuracy] at hbetween
  have hlow : t = -1074 ∨ (2 : ℚ) ^ (52 + t) ≤ x * 2 ^ e := by
    by_cases hleast : t = -1074
    · exact .inl hleast
    · have hm : m ≠ 0 := by
        rintro rfl
        rw [Nat.log2_zero] at ht
        omega
      have hself : ((2 : ℚ) ^ m.log2) ≤ m := by exact_mod_cast Nat.log2_self_le hm
      right
      calc (2 : ℚ) ^ (52 + t) = 2 ^ m.log2 * 2 ^ e := by
            rw [show 52 + t = m.log2 + e by omega, two_zpow_add, zpow_natCast]
        _ ≤ x * 2 ^ e :=
          mul_le_mul_of_nonneg_right (hself.trans hbetween.1) (zpow_pos (by norm_num) e).le
  have hhigh : x * 2 ^ e / 2 ^ t < 2 ^ 53 := by
    have hself : (m + 1 : ℚ) ≤ 2 ^ (m.log2 + 1) := by
      exact_mod_cast (Nat.lt_log2_self : m < 2 ^ (m.log2 + 1))
    rw [div_lt_iff₀ hpos]
    calc x * 2 ^ e < 2 ^ (m.log2 + 1) * 2 ^ e :=
          mul_lt_mul_of_pos_right (hbetween.2.trans_le hself) (zpow_pos (by norm_num) e)
      _ = 2 ^ (((m.log2 + 1 : ℕ) : ℤ) + e) := by rw [two_zpow_add, zpow_natCast]
      _ ≤ 2 ^ (53 + t) := zpow_le_zpow_right₀ (by norm_num) (by omega)
      _ = 2 ^ 53 * 2 ^ t := by
        rw [two_zpow_add]
        norm_num
  unfold roundWithAccuracy
  rcases hshift : shiftToTargetExponent Format.binary64 m e accuracy with ⟨em, e'⟩
  rw [hshift] at hholds hexponent
  dsimp only at hholds hexponent ⊢
  subst hexponent
  obtain ⟨hround, hround'⟩ := roundedMantissa_between em
  obtain ⟨hcut, hcut'⟩ := hholds.between
  have hmantissa : em.mantissa < 2 ^ 53 := by exact_mod_cast hcut.trans_lt hhigh
  refine rounds_of_roundsTo hholds.roundsTo (by omega) hlow (hlow.imp_right fun hlow => ?_) (by omega)
  rw [two_zpow_add, ← le_div_iff₀ hpos] at hlow
  have hbelow : ((2 : ℚ) ^ 52) < em.mantissa + 1 := lt_of_le_of_lt (by exact_mod_cast hlow) hcut'
  have : 2 ^ 52 < em.mantissa + 1 := by exact_mod_cast hbelow
  omega

/-! ### Packing -/

/-- The fields of a word. -/
theorem toNat_packComponents (sign : Sign) (exponent : BitVec 11) (mantissa : BitVec 52) :
    (packComponents Format.binary64 sign exponent mantissa).toNat =
      (if sign == .negative then 2 ^ 63 else 0) + exponent.toNat * 2 ^ 52 + mantissa.toNat := by
  have hexponent := exponent.isLt
  have hmantissa := mantissa.isLt
  have hword : (packComponents Format.binary64 sign exponent mantissa).toNat =
      (sign.toBitVec ++ exponent ++ mantissa).toNat := rfl
  rw [hword, BitVec.toNat_append, BitVec.toNat_append, ← Nat.shiftLeft_add_eq_or_of_lt hmantissa,
    ← Nat.shiftLeft_add_eq_or_of_lt hexponent, Nat.shiftLeft_eq, Nat.shiftLeft_eq]
  cases sign with
  | negative =>
    show (1 * 2 ^ 11 + exponent.toNat) * 2 ^ 52 + mantissa.toNat = 2 ^ 63 + _ + _
    omega
  | positive =>
    show (0 * 2 ^ 11 + exponent.toNat) * 2 ^ 52 + mantissa.toNat = 0 + _ + _
    omega

/-- The fields of a word are read back. -/
theorem ofFloat_of_toNat {x : Float} {negative : Bool} {biased fraction : ℕ}
    (h : x.toBits.toNat = (if negative then 2 ^ 63 else 0) + biased * 2 ^ 52 + fraction)
    (hbiased : biased < 2047) (hfraction : fraction < 2 ^ 52) :
    ofFloat x = if biased = 0 then .finite negative fraction (-1074)
      else .finite negative (2 ^ 52 + fraction) (biased - 1075) := by
  have hnegative : decide (2 ^ 63 ≤ x.toBits.toNat) = negative := by
    rw [h]
    cases negative <;> simp <;> omega
  have hfields : x.toBits.toNat % 2 ^ 52 = fraction ∧ x.toBits.toNat / 2 ^ 52 % 2 ^ 11 = biased := by
    rw [h]
    cases negative <;> simp only [if_true, if_false, Bool.false_eq_true] <;> omega
  unfold ofFloat
  simp only [Nat.pow_eq, hnegative, hfields.1, hfields.2]
  rw [if_neg (by omega)]

/-- A canonical value that is small enough can be packed into a word. -/
theorem ofFloat_pack {u : UnpackedFloat} {negative : Bool} {m : ℕ} {e : ℤ}
    (hu : ofUnpacked u = .finite negative m e) (hc : (finite negative m e).Canonical) (he : e ≤ 971) :
    ofFloat ⟨Float.Model.pack u⟩ = .finite negative m e := by
  obtain ⟨hm, hleast, hnormal⟩ := hc
  cases u with
  | notANumber | infinity _ => cases hu
  | zero sign =>
    cases hu
    have hword : (Float.toBits ⟨Float.Model.pack (.zero sign)⟩).toNat =
        (if sign == .negative then 2 ^ 63 else 0) + 0 * 2 ^ 52 + 0 := toNat_packComponents sign 0 0
    exact ofFloat_of_toNat hword (by decide) (by decide)
  | finite sign m e hpos =>
    cases hu
    have hbias : Format.binary64.exponentBias = 1023 := by decide
    obtain ⟨biased, hbiased⟩ : ∃ biased : ℕ, (e + (1023 : ℕ) + (52 : ℕ)).toNat = biased := ⟨_, rfl⟩
    have hword : (Float.toBits ⟨Float.Model.pack (.finite sign m e hpos)⟩).toNat =
        (UnpackedFloat.pack Format.binary64 (.finite sign m e hpos)).toNat := rfl
    unfold UnpackedFloat.pack at hword
    dsimp only at hword
    rw [hbias, hbiased, if_neg (by omega)] at hword
    split at hword
    · rename_i hbits
      have hlog : m.log2 = 52 := by
        have : m.log2 + 1 = 53 := hbits
        omega
      have hlow : 2 ^ 52 ≤ m := hlog ▸ Nat.log2_self_le hpos.ne'
      rw [toNat_packComponents, BitVec.toNat_ofNat, BitVec.toNat_ofNat,
        Nat.mod_eq_of_lt (show biased < 2 ^ 11 by omega)] at hword
      rw [ofFloat_of_toNat hword (by omega) (Nat.mod_lt _ (by decide)), if_neg (by omega)]
      congr 1 <;> omega
    · rename_i hbits
      have hhigh : m < 2 ^ 52 := by
        by_contra hlow
        exact hbits (congrArg (· + 1) (log2_eq (by omega) (by omega)))
      obtain rfl : e = -1074 := hnormal.resolve_right (by omega)
      have hmantissa : (BitVec.ofNat 52 m).toNat = m := by
        rw [BitVec.toNat_ofNat, Nat.mod_eq_of_lt hhigh]
      rw [toNat_packComponents, hmantissa] at hword
      exact ofFloat_of_toNat hword (by decide) hhigh

end Binary64

end Workings

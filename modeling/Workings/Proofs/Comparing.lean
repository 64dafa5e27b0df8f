import Workings.Proofs.Nearest

/-!
# Comparing floats

Floats are compared by their signs, exponents and significands. A float below another one stands for a
smaller number (`value_lt_of_lt`), because a significand that is normalized is never so short that a
larger exponent does not count. So the conversion of integers to floats keeps their order
(`not_ofInt_lt_ofInt`).
-/

namespace Workings

open Float.Model Float.Model.UnpackedFloat

namespace Binary64

variable {m m' : ℕ} {e e' : ℤ}

/-- Exponents are compared first. -/
theorem magnitude_lt (hm : m < 2 ^ 53) (he : -1074 ≤ e) (hm' : e' = -1074 ∨ 2 ^ 52 ≤ m')
    (h : (compare e e').then (compare m m') = .lt) : (m * 2 ^ e : ℚ) < m' * 2 ^ e' := by
  have hpos : (0 : ℚ) < 2 ^ e := zpow_pos (by norm_num) _
  rw [Ordering.then_eq_lt, Int.compare_eq_lt, Int.compare_eq_eq, Nat.compare_eq_lt] at h
  rcases h with hlt | ⟨rfl, hlt⟩
  · have hnormal : (2 ^ (52 : ℤ) : ℚ) ≤ m' := by exact_mod_cast hm'.resolve_left (by omega)
    calc (m * 2 ^ e : ℚ) < 2 ^ (53 : ℤ) * 2 ^ e := mul_lt_mul_of_pos_right (by exact_mod_cast hm) hpos
      _ = 2 ^ (52 : ℤ) * 2 ^ (e + 1) := by rw [← two_zpow_add, ← two_zpow_add]; congr 1; omega
      _ ≤ m' * 2 ^ e' := mul_le_mul hnormal (zpow_le_zpow_right₀ (by norm_num) (by omega))
          (zpow_pos (by norm_num) _).le (Nat.cast_nonneg m')
  · exact mul_lt_mul_of_pos_right (by exact_mod_cast hlt) hpos

@[simp]
theorem valueOf_zero (negative : Bool) (e : ℤ) : valueOf negative 0 e = 0 := by
  cases negative <;> simp [valueOf, signed]

theorem valueOf_negative (m : ℕ) (e : ℤ) : valueOf true m e = -(m * 2 ^ e) := by
  simp [valueOf, signed]

/-- What is taken apart is compared as what it stands for. -/
theorem value_lt_of_compare {a b : UnpackedFloat} (ha : (ofUnpacked a).Canonical)
    (hb : (ofUnpacked b).Canonical) {p q : ℚ} (hp : (ofUnpacked a).value? = some p)
    (hq : (ofUnpacked b).value? = some q) (h : a.compare b = some .lt) : p < q := by
  have hpos (m : ℕ) (e : ℤ) (hm : 0 < m) : (0 : ℚ) < m * 2 ^ e :=
    mul_pos (by exact_mod_cast hm) (zpow_pos (by norm_num) _)
  cases a with
  | notANumber | infinity _ => cases hp
  | zero sign =>
    obtain rfl := Option.some.inj hp
    rw [valueOf_zero]
    cases b with
    | notANumber | infinity _ => cases hq
    | zero _ => cases h
    | finite sign' m' e' hm' =>
      obtain rfl := Option.some.inj hq
      cases sign' with
      | positive => exact hpos m' e' hm'
      | negative => cases h
  | finite sign m e hm =>
    obtain rfl := Option.some.inj hp
    obtain ⟨hbits, hexponent, hnormal⟩ := ha
    cases b with
    | notANumber | infinity _ => cases hq
    | zero _ =>
      obtain rfl := Option.some.inj hq
      rw [valueOf_zero]
      cases sign with
      | positive => cases h
      | negative => exact (valueOf_negative m e).trans_lt (neg_lt_zero.2 (hpos m e hm))
    | finite sign' m' e' hm' =>
      obtain rfl := Option.some.inj hq
      obtain ⟨hbits', hexponent', hnormal'⟩ := hb
      cases sign with
      | positive =>
        cases sign' with
        | positive => exact magnitude_lt hbits hexponent hnormal' (Option.some.inj h)
        | negative => cases h
      | negative =>
        have hbelow : valueOf true m e < 0 :=
          (valueOf_negative m e).trans_lt (neg_lt_zero.2 (hpos m e hm))
        cases sign' with
        | positive => exact hbelow.trans (hpos m' e' hm')
        | negative =>
          have hswap : (compare e' e).then (compare m' m) = .lt := by
            have hlt : ((compare e e').then (compare m m')).swap = .lt := Option.some.inj h
            rwa [Ordering.swap_then, Int.compare_swap, Nat.compare_swap] at hlt
          have hmagnitude := magnitude_lt hbits' hexponent' hnormal hswap
          show valueOf true m e < valueOf true m' e'
          rw [valueOf_negative, valueOf_negative]
          exact neg_lt_neg hmagnitude

end Binary64

/-- A float below another one stands for a smaller number. -/
theorem value_lt_of_lt {x y : Float} {p q : ℚ} (hp : (Binary64.ofFloat x).value? = some p)
    (hq : (Binary64.ofFloat y).value? = some q) (h : x < y) : p < q := by
  have hlt : x.toModel.unpack.lt y.toModel.unpack = true := of_decide_eq_true h
  have hcanonical := Binary64.canonical_ofFloat x
  have hcanonical' := Binary64.canonical_ofFloat y
  rw [Binary64.ofFloat_eq] at hp hq hcanonical hcanonical'
  exact Binary64.value_lt_of_compare hcanonical hcanonical' hp hq (beq_iff_eq.1 hlt)

/-- A number that is not farther from the smaller one of two is not above the middle. -/
theorem two_mul_le_of_abs_sub_le {a p q : ℚ} (hlt : p < q) (h : |a - p| ≤ |a - q|) : 2 * a ≤ p + q := by
  have hsquare := sq_le_sq.2 h
  nlinarith

/-- Integers keep their order when they are converted to floats. -/
theorem not_ofInt_lt_ofInt {k n : ℤ} (h : k ≤ n) (hk : (|k| : ℚ) < 2 ^ (1023 : ℤ))
    (hn : (|n| : ℚ) < 2 ^ (1023 : ℤ)) : ¬ Float.ofInt n < Float.ofInt k := by
  intro hlt
  obtain ⟨negative, m, e, hp, hnear⟩ := nearest_ofInt hn
  obtain ⟨negative', m', e', hq, hnear'⟩ := nearest_ofInt hk
  have hvalue := congrArg Binary64.value? hp
  have hvalue' := congrArg Binary64.value? hq
  have hbelow := value_lt_of_lt hvalue hvalue' hlt
  have hmiddle := two_mul_le_of_abs_sub_le hbelow ((hnear _ _ hvalue').elim le_of_lt fun h => h.1.le)
  have hmiddle' := two_mul_le_of_abs_sub_le (neg_lt_neg hbelow) (a := -k) (by
    rw [neg_sub_neg, neg_sub_neg, abs_sub_comm, abs_sub_comm _ (k : ℚ)]
    exact (hnear' _ _ hvalue).elim le_of_lt fun h => h.1.le)
  -- both are in the middle between the floats, so they are the same integer
  have hcast : (k : ℚ) ≤ n := by exact_mod_cast h
  obtain rfl : k = n := by
    have hsame : (k : ℚ) = n := by linarith
    exact_mod_cast hsame
  have hsame : some (Binary64.valueOf negative m e) = some (Binary64.valueOf negative' m' e') :=
    hvalue.symm.trans hvalue'
  exact hbelow.ne (Option.some.inj hsame)

/-! ### Words as floats -/

/-- Words are far from the greatest float. -/
theorem abs_toInt_lt (n : Int64) : (|n.toInt| : ℚ) < 2 ^ (1023 : ℤ) := by
  obtain ⟨hlow, hhigh⟩ := inRange_toInt n
  have hword : |n.toInt| < 2 ^ 64 := abs_lt.2 ⟨by omega, by omega⟩
  have hcast : (|n.toInt| : ℚ) < 2 ^ (64 : ℤ) := by exact_mod_cast hword
  exact hcast.trans_le (zpow_le_zpow_right₀ (by norm_num) (by norm_num))

theorem Number.isNaN_int (n : Int64) : (Number.int n).isNaN = false := by
  obtain ⟨negative, m, e, hfinite, -⟩ := nearest_ofInt (abs_toInt_lt n)
  rw [Bool.eq_false_iff]
  intro hnan
  have hunpack : (Float.ofInt n.toInt).toModel.unpack = .notANumber := (float_isNaN_iff _).1 hnan
  rw [Binary64.ofFloat_eq, hunpack] at hfinite
  cases hfinite

end Workings

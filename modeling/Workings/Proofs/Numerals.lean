import Workings.Proofs.Opposites
import Workings.Proofs.Totals
import Workings.Render.Shape

/-!
# The text of a number

The text of a number starts with a minus sign if and only if the number is negative
(`Number.startsWithMinus_text`), and apart from that sign it consists of digits, a point, and the letters
of the words for infinity and for no number (`Number.mem_text`). The opposite of a negative number is not
negative (`Number.isNegative_neg`), also for the least word, which becomes a float.
-/

namespace Workings

open Float.Model Float.Model.UnpackedFloat
open Render (startsWithMinus)

/-! ### Floats below zero -/

/-- What is below zero is an infinity or has a significand, and has a minus sign. -/
theorem lt_zero_iff (x : Float) :
    x < 0.0 ↔ Binary64.ofFloat x = .infinite true ∨
      ∃ m e, 0 < m ∧ Binary64.ofFloat x = .finite true m e := by
  rw [lt_iff_unpack, unpack_float_zero, Binary64.ofFloat_eq]
  unfold UnpackedFloat.lt UnpackedFloat.compare
  cases x.toModel.unpack with
  | notANumber | zero _ => simp [Binary64.ofUnpacked]
  | infinity sign => cases sign <;> simp [Binary64.ofUnpacked]
  | finite sign m e hm => cases sign <;> simp [Binary64.ofUnpacked, hm]

theorem not_neg_lt_zero {x : Float} (h : x < 0.0) : ¬ -x < 0.0 := by
  rw [lt_iff_unpack, unpack_float_zero] at h ⊢
  rw [unpack_neg]
  cases hx : x.toModel.unpack with
  | notANumber | zero _ =>
    rw [hx] at h
    cases h
  | infinity sign | finite sign _ _ _ =>
    rw [hx] at h
    cases sign with
    | positive => cases h
    | negative => exact Bool.false_ne_true

theorem Scientific.negative_decimal (s : Scientific) (negative : Bool) :
    (s.decimal negative).negative = negative := by
  unfold decimal
  extract_lets digits point
  split
  · rfl
  · split <;> rfl

namespace Number

/-- The opposite of a negative number is not negative. -/
theorem isNegative_neg {n : Number} (h : n.isNegative = true) : (-n).isNegative = false := by
  cases n with
  | float x => exact decide_eq_false (not_neg_lt_zero (of_decide_eq_true h))
  | int n =>
    by_cases hmin : n = Int64.minValue
    · subst hmin
      decide +kernel
    · rw [isNegative_int] at h
      rw [neg_int hmin, ← Bool.not_eq_true, isNegative_int, toInt_neg hmin]
      omega

/-! ### Characters -/

/-- The printed form of a finite number has the sign of the number. -/
theorem negative_row {n : Number} (h : n.isFinite = true) : n.row.negative = n.isNegative := by
  have hrow := (printed_of_isFinite h).1
  cases n with
  | int n =>
    have hsign : n < 0 ↔ n.toInt < 0 := Int64.lt_iff_toInt_lt
    exact decide_eq_decide.2 hsign.symm
  | float x =>
    rw [Bool.eq_iff_iff]
    unfold isNegative
    rw [decide_eq_true_iff, lt_zero_iff]
    cases hx : Binary64.ofFloat x with
    | nan | infinite _ =>
      simp only [decimal?, hx] at hrow
      cases hrow
    | finite negative m e =>
      simp only [decimal?, hx] at hrow
      have hdecimal : (Binary64.decimal negative m e significantDigits).negative = true ↔
          negative = true ∧ 0 < m := by
        unfold Binary64.decimal
        split
        · simp [*]
        · rename_i hm
          rw [Scientific.negative_decimal]
          exact (and_iff_left (Nat.pos_of_ne_zero hm)).symm
      rw [← Option.some.inj hrow, hdecimal]
      simp only [reduceCtorEq, false_or, Binary64.finite.injEq]
      constructor
      · rintro ⟨rfl, hm⟩
        exact ⟨m, e, hm, rfl, rfl, rfl⟩
      · rintro ⟨_, _, hm, rfl, rfl, rfl⟩
        exact ⟨rfl, hm⟩

/-- The words for what has no digits. -/
theorem chars_of_not_isFinite {n : Number} (h : n.isFinite = false) :
    n.chars = "inf".toList ∧ n.isNegative = false ∨ n.chars = "-inf".toList ∧ n.isNegative = true ∨
      n.chars = "nan".toList ∧ n.isNegative = false := by
  cases n with
  | int n => cases h
  | float x =>
    have hunpack : x.toModel.unpack.isFinite = false := h
    have hnegative : (Number.float x).isNegative = true ↔ x < 0.0 := decide_eq_true_iff
    rw [← Bool.not_eq_true, hnegative, lt_zero_iff]
    have hfloat := Binary64.ofFloat_eq x
    cases hu : x.toModel.unpack with
    | zero _ | finite _ _ _ _ =>
      rw [hu] at hunpack
      cases hunpack
    | notANumber =>
      rw [hu] at hfloat
      simp [chars, decimal?, wordsFor, toFloat, hfloat, Binary64.ofUnpacked]
    | infinity sign =>
      rw [hu, Binary64.ofUnpacked] at hfloat
      cases sign with
      | negative => simp [chars, decimal?, wordsFor, toFloat, hfloat]
      | positive =>
        have hpositive : Binary64.ofFloat x = .infinite false := hfloat
        simp [chars, decimal?, wordsFor, toFloat, hpositive]

/-- The text of a number starts with a minus sign if and only if the number is negative. -/
theorem startsWithMinus_text (n : Number) : startsWithMinus n.text = n.isNegative := by
  unfold startsWithMinus text
  rw [String.toList_ofList]
  cases h : n.isFinite with
  | true =>
    obtain ⟨hdecimal, ⟨hdigits, -⟩, hne⟩ := printed_of_isFinite h
    unfold chars
    rw [hdecimal, ← negative_row h]
    dsimp only
    unfold Decimal.chars
    cases n.row.negative with
    | true => rfl
    | false =>
      obtain ⟨c, cs, hwhole⟩ := List.exists_cons_of_ne_nil hne
      have hc := hdigits c (by rw [hwhole]; exact List.mem_cons_self)
      rw [hwhole]
      refine beq_eq_false_iff_ne.2 fun h => ?_
      obtain rfl : c = '-' := Option.some.inj h
      exact absurd hc (by decide)
  | false =>
    rcases chars_of_not_isFinite h with ⟨hchars, hsign⟩ | ⟨hchars, hsign⟩ | ⟨hchars, hsign⟩
    all_goals rw [hchars, hsign]; rfl

/-- The text of a number consists of digits, signs, points and the letters of `inf` and `nan`. -/
theorem mem_text (n : Number) : ∀ c ∈ n.text.toList, c.isDigit = true ∨ c ∈ "-.infa".toList := by
  unfold text
  rw [String.toList_ofList]
  cases h : n.isFinite with
  | true =>
    obtain ⟨hdecimal, ⟨hwhole, hfraction⟩, -⟩ := printed_of_isFinite h
    unfold chars
    rw [hdecimal]
    dsimp only
    unfold Decimal.chars
    intro c hc
    rw [List.mem_append, List.mem_append] at hc
    rcases hc with (hc | hc) | hc
    · split at hc
      · exact .inr (List.mem_singleton.1 hc ▸ by decide)
      · cases hc
    · exact .inl (hwhole c hc)
    · split at hc
      · cases hc
      · rcases List.mem_cons.1 hc with rfl | hc
        · exact .inr (by decide)
        · exact .inl (hfraction c hc)
  | false =>
    have hletters : n.chars ⊆ "-.infa".toList := by
      rcases chars_of_not_isFinite h with ⟨hchars, -⟩ | ⟨hchars, -⟩ | ⟨hchars, -⟩
      all_goals rw [hchars]; decide
    exact fun c hc => .inr (hletters hc)

end Number

end Workings

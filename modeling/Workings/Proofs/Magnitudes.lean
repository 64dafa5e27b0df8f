import Workings.Proofs.Building
import Workings.Proofs.Naturals
import Workings.Proofs.Refusals
import Workings.Proofs.Substituting

/-!
# Estimates by order of magnitude

A product of words with more digits than the options allow is not worked out. A power of ten takes its
place, with one zero less than the factors have digits together. Since the digits of a word bound its
magnitude from both sides (`digitCount_bounds`), the estimate has the sign of the product and is at most ten
times as large, and less than ten times as small (`multiply_estimates`).
-/

namespace Workings

open Work (exec exec_bind_ok exec_changeWith exec_options_bind exec_remark_bind exec_report_bind exec_written_bind)
open Workings.Expr (Denotes denotes_int denotes_buildPow denotes_buildProd)

/-! ### The value of an estimate -/

theorem Meaning.normalizes_integers (symbols : String → ℤ) : (integers symbols).Normalizes where
  zero := rfl
  one := rfl
  pow_one := pow_one
  pow_zero := pow_zero
  one_pow c := one_pow c.toNat

/-- A power of ten that counts, with its sign. -/
theorem value_orderOfMagnitude {order : Int64} (h : 0 ≤ order.toInt) (negative : Bool)
    (symbols : String → ℤ) :
    (orderOfMagnitude order negative).value (.integers symbols) =
      (if negative then -1 else 1) * 10 ^ order.toInt.toNat := by
  have hnormalizes := Meaning.normalizes_integers symbols
  have horder : max order 0 = order := by
    show (if order ≤ 0 then 0 else order) = order
    split
    · rename_i hle
      exact (Int64.toInt_inj.1 (le_antisymm (Int64.le_iff_toInt_le.1 hle) h)).symm
    · rfl
  have hten : Denotes (.integers symbols) (Expr.buildPow 10 (.int order)) (10 ^ order.toInt.toNat) :=
    denotes_buildPow hnormalizes (denotes_int rfl) (denotes_int rfl)
  unfold orderOfMagnitude
  rw [horder]
  cases negative with
  | false => exact hten.value.trans (one_mul _).symm
  | true =>
    have hminus : Denotes (.integers symbols) Expr.minusOne (-1) := denotes_int rfl
    have hproduct := denotes_buildProd hnormalizes (.cons hminus (.cons hten .nil))
    refine hproduct.value.trans ?_
    simp

/-! ### Digits -/

/-- The digits of a word bound its magnitude. -/
theorem digitCount_bounds {n : Int64} (hn : n ≠ 0) :
    10 ^ (digitCount n - 1) ≤ n.toInt.natAbs ∧ n.toInt.natAbs < 10 ^ digitCount n := by
  have hpos : 0 < n.toInt.natAbs := by
    refine Int.natAbs_pos.2 fun hzero => hn ?_
    exact Int64.toInt_inj.1 hzero
  obtain ⟨k, hk, hlow, hhigh⟩ := exists_length_toDigits hpos
  change digitCount n = k + 1 at hk
  rw [hk, Nat.add_sub_cancel]
  exact ⟨hlow, hhigh⟩

theorem digitCount_le (n : Int64) : digitCount n ≤ 19 := by
  refine (Nat.length_toDigits_le_iff (by decide) (by decide)).2 ?_
  obtain ⟨hlow, hhigh⟩ := inRange_toInt n
  omega

/-- A power of ten with one zero less than two words have digits together is within a factor of ten of their
product. -/
theorem product_bounds {a b : Int64} (ha : a ≠ 0) (hb : b ≠ 0) :
    10 ^ (digitCount a + digitCount b - 1) ≤ 10 * (a.toInt * b.toInt).natAbs ∧
      (a.toInt * b.toInt).natAbs < 10 * 10 ^ (digitCount a + digitCount b - 1) := by
  obtain ⟨hlowa, hhigha⟩ := digitCount_bounds ha
  obtain ⟨hlowb, hhighb⟩ := digitCount_bounds hb
  have hcounta : 0 < digitCount a := Nat.length_toDigits_pos
  have hcountb : 0 < digitCount b := Nat.length_toDigits_pos
  rw [Int.natAbs_mul]
  constructor
  · calc 10 ^ (digitCount a + digitCount b - 1)
        = 10 * (10 ^ (digitCount a - 1) * 10 ^ (digitCount b - 1)) := by
          rw [← pow_add, ← pow_succ']
          congr 1
          omega
      _ ≤ 10 * (a.toInt.natAbs * b.toInt.natAbs) :=
          Nat.mul_le_mul_left 10 (Nat.mul_le_mul hlowa hlowb)
  · calc a.toInt.natAbs * b.toInt.natAbs
        < 10 ^ digitCount a * 10 ^ digitCount b := Nat.mul_lt_mul'' hhigha hhighb
      _ = 10 * 10 ^ (digitCount a + digitCount b - 1) := by
          rw [← pow_add, ← pow_succ']
          congr 1
          omega

/-- The value of the estimate of a product. -/
theorem value_estimate (a b : Int64) (symbols : String → ℤ) :
    (orderOfMagnitude (Int64.ofNat (digitCount a + digitCount b) - 1)
      ((Number.int a).isNegative != (Number.int b).isNegative)).value (.integers symbols) =
      (if a.toInt < 0 ↔ b.toInt < 0 then 1 else -1) * 10 ^ (digitCount a + digitCount b - 1) := by
  have hcounta : 0 < digitCount a := Nat.length_toDigits_pos
  have hcountb : 0 < digitCount b := Nat.length_toDigits_pos
  have hlea := digitCount_le a
  have hleb := digitCount_le b
  have horder : (Int64.ofNat (digitCount a + digitCount b) - 1).toInt =
      (digitCount a + digitCount b - 1 : ℕ) := by
    rw [Int64.toInt_sub, Int64.toInt_ofNat_of_lt (by omega)]
    change ((digitCount a + digitCount b : ℕ) - (1 : ℤ)).bmod _ = _
    rw [Int.bmod_eq_of_le (by omega) (by omega)]
    omega
  rw [value_orderOfMagnitude (by omega), horder, Int.toNat_natCast]
  congr 1
  have hsign : ((Number.int a).isNegative != (Number.int b).isNegative) = true ↔
      ¬ (a.toInt < 0 ↔ b.toInt < 0) := by
    rw [bne_iff_ne, ne_eq, Bool.eq_iff_iff, Number.isNegative_int, Number.isNegative_int]
  by_cases h : a.toInt < 0 ↔ b.toInt < 0
  · rw [if_pos h, if_neg (hsign.not.2 (not_not.2 h))]
  · rw [if_neg h, if_pos (hsign.2 h)]

/-! ### Estimating -/

/-- A product with more digits than the options allow is estimated. -/
theorem exec_estimateProduct? {a b : Number} {s : Sheet} (htree : s.tree = productOfNumbers a b)
    {threshold : ℕ} (hthreshold : s.options.magnitudeThreshold = some threshold)
    (hlong : threshold < a.complexity + b.complexity) :
    ∃ e t, exec (estimateProduct? a b) s = (.ok (some e), t) ∧
      e = orderOfMagnitude (Int64.ofNat (a.complexity + b.complexity) - 1)
        (a.isNegative != b.isNegative) ∧
      t.tree = e ∧ t.approximate = true ∧ .partly ≤ t.status := by
  unfold estimateProduct?
  rw [exec_options_bind, hthreshold]
  extract_lets digits estimate
  dsimp only
  rw [if_neg (not_le.2 hlong)]
  -- what is written down before the change leaves the tree alone
  simp only [exec_report_bind, exec_remark_bind, exec_written_bind]
  generalize ht : Sheet.remark _ _ _ = t
  have htree' : t.tree = productOfNumbers a b := by
    rw [← ht]
    simp only [Sheet.remark_eq, Sheet.report_eq, htree]
  have hstatus : .partly ≤ t.status := by
    rw [← ht]
    simp only [Sheet.remark_eq, Sheet.report_status]
    exact le_max_right _ _
  have hhas : t.tree.has (productOfNumbers a b) = true := by
    rw [htree']
    exact Expr.has_self _
  unfold Work.estimate
  rw [exec_bind_ok (by rw [exec_changeWith, if_pos hhas])]
  refine ⟨_, _, rfl, rfl, ?_, Bool.or_true _, hstatus⟩
  show t.tree.replace (productOfNumbers a b) estimate = estimate
  rw [htree', Expr.replace_self]

/-- Whatever way is taken for a product that is not estimated. -/
theorem exec_multiplyWith {shortcut? : Number → Number → Work (Option Number)} {a b : Int64} {s t : Sheet}
    {e : Expr} (h : exec (estimateProduct? (.int a) (.int b)) s = (.ok (some e), t)) :
    exec (multiplyWith shortcut? (.int a) (.int b)) s = (.ok e, t) := by
  unfold multiplyWith
  rw [exec_options_bind]
  extract_lets expression quick limit
  rw [if_neg (show ¬ (!(Number.int a).isFinite || !(Number.int b).isFinite) = true by exact nofun),
    exec_bind_ok h]
  rfl

/-- The sign of the estimate is that of the product. -/
theorem sign_estimate {a b : ℤ} (ha : a ≠ 0) (hb : b ≠ 0) {p : ℤ} (hp : 0 < p) :
    ((if a < 0 ↔ b < 0 then 1 else -1) * p).sign = (a * b).sign := by
  rw [Int.sign_mul, Int.sign_mul, Int.sign_eq_one_of_pos hp, mul_one]
  rcases lt_or_gt_of_ne ha with ha | ha <;> rcases lt_or_gt_of_ne hb with hb | hb <;>
    simp [ha, hb, ha.le, hb.le, not_lt.2, Int.sign_eq_one_of_pos, Int.sign_eq_neg_one_of_neg]

/-- Two words that have more digits together than the options allow are multiplied by an estimate, which
takes the place of their product in the tree. It has the sign of the product, it is at most ten times as
large as the product and more than a tenth of it, and the solution is approximate and partial from there
on. -/
theorem multiply_estimates {a b : Int64} (ha : a ≠ 0) (hb : b ≠ 0) (quick : Bool) {s : Sheet}
    (htree : s.tree = productOfNumbers (.int a) (.int b)) {threshold : ℕ}
    (hthreshold : s.options.magnitudeThreshold = some threshold)
    (hlong : threshold < digitCount a + digitCount b) :
    ∃ e t, exec (multiply quick (.int a) (.int b)) s = (.ok e, t) ∧ t.tree = e ∧
      t.approximate = true ∧ .partly ≤ t.status ∧
      ∀ symbols, let v := e.value (.integers symbols)
        v.sign = (a.toInt * b.toInt).sign ∧ |v| ≤ 10 * |a.toInt * b.toInt| ∧
          |a.toInt * b.toInt| < 10 * |v| := by
  obtain ⟨e, t, hexec, he, htree', happroximate, hstatus⟩ :=
    exec_estimateProduct? htree hthreshold hlong
  refine ⟨e, t, ?_, htree', happroximate, hstatus, fun symbols => ?_⟩
  · unfold multiply
    rw [exec_options_bind]
    split
    · exact exec_multiplyWith hexec
    · exact exec_multiplyWith hexec
  · obtain ⟨hlow, hhigh⟩ := product_bounds ha hb
    have hvalue : e.value (.integers symbols) = _ := he ▸ value_estimate a b symbols
    have hpos : (0 : ℤ) < 10 ^ (digitCount a + digitCount b - 1) := by positivity
    intro v
    have hv : v = _ := hvalue
    have habs : |v| = 10 ^ (digitCount a + digitCount b - 1) := by
      rw [hv, abs_mul, abs_of_pos hpos]
      split <;> simp
    have hne (n : Int64) (hn : n ≠ 0) : n.toInt ≠ 0 := fun hzero => hn (Int64.toInt_inj.1 hzero)
    refine ⟨?_, ?_, ?_⟩
    · rw [hv]
      exact sign_estimate (hne a ha) (hne b hb) hpos
    · rw [habs, Int.abs_eq_natAbs]
      exact_mod_cast hlow
    · rw [habs, Int.abs_eq_natAbs]
      exact_mod_cast hhigh

/-- The least word has nineteen digits, so with a seven its product is estimated as `-10 ^ 19` where at most
nineteen digits are allowed. -/
theorem multiply_estimates_least :
    let s := Sheet.new (productOfNumbers (.int Int64.minValue) (.int 7)) {}
      { magnitudeThreshold := some 19 } true
    (Int64.minValue ≠ 0 ∧ (7 : Int64) ≠ 0 ∧ 19 < digitCount Int64.minValue + digitCount 7) ∧
    ∃ e t, exec (multiply true (.int Int64.minValue) (.int 7)) s = (.ok e, t) ∧ t.tree = e ∧
      t.approximate = true ∧ .partly ≤ t.status ∧
      |Int64.minValue.toInt * 7| < 10 * |e.value (.integers fun _ => 0)| := by
  intro s
  have hlong : 19 < digitCount Int64.minValue + digitCount 7 := by decide
  obtain ⟨e, t, hexec, htree, happroximate, hstatus, hvalue⟩ :=
    multiply_estimates (a := Int64.minValue) (b := 7) (by decide) (by decide) true (s := s) rfl rfl hlong
  exact ⟨⟨by decide, by decide, hlong⟩, e, t, hexec, htree, happroximate, hstatus,
    (hvalue fun _ => 0).2.2⟩

end Workings

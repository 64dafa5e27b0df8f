import Workings.Proofs.Equations
import Workings.Proofs.LikeTerms

/-!
# Parts for comparison

Before the target of a replacement is looked for in part of a sum or a product, terms and factors are brought
to a form in which they can be compared: one level of nesting is opened, and the signs of numbers are taken out
of a product. In every ring the terms for comparison add up to the sum. The factors for comparison, with the
sign that was taken out, make up the product of all factors but the sums of no terms: those are left out
although they are `0` (`Target.value_plainParts`).
-/

namespace Workings

open Workings.Expr (Everywhere Faithful)

namespace RingMeaning

variable {R : Type*} [CommRing R] (m : RingMeaning R)

theorem sign_eq : m.sign = -1 :=
  (m.num_int (-1)).trans (by simp)

/-- In a ring the sign of an integer stands for minus one. -/
theorem signed : m.Signed where
  one := m.num_one
  sign_mul_sign := by
    rw [m.sign_eq]
    ring
  neg n hn := by
    obtain ⟨k, rfl⟩ := hn.exists_int
    rw [Number.neg_int hn, m.num_int, m.num_int, Number.toInt_neg hn, m.sign_eq]
    push_cast
    ring

/-- The value of a product with a sign that has been taken out of it. -/
def signedValue (negative : Bool) (factors : List Expr) : R :=
  if negative then -(Expr.prod factors).value m.toMeaning else (Expr.prod factors).value m.toMeaning

theorem signedValue_eq (negative : Bool) (factors : List Expr) :
    m.signedValue negative factors = m.signOf negative * (factors.map (Expr.value m.toMeaning)).prod := by
  unfold signedValue Meaning.signOf
  rw [m.sign_eq, Expr.value_prod]
  cases negative <;> simp

end RingMeaning

namespace Target

section

variable {R : Type*} [CommRing R] (m : RingMeaning R)

/-- The factors for comparison make up the product of all factors but the sums of no terms. -/
theorem signedValue_plainFactors {factors : List Expr} (h : ∀ n, .num n ∈ factors → n.Whole) :
    m.signedValue (isNegative factors) (plainFactors factors) =
      (Expr.prod (factors.filter (!·.isEmptySum))).value m.toMeaning := by
  rw [m.signedValue_eq, Expr.value_prod, prod_filter_plainFactors m.signed h]

/-- A product with a sum of no terms among its factors is `0`. -/
theorem value_prod_of_emptySum {factors : List Expr} (h : .sum [] ∈ factors) :
    (Expr.prod factors).value m.toMeaning = 0 := by
  rw [Expr.value_prod]
  exact List.prod_eq_zero (List.mem_map.2 ⟨_, h, by simp⟩)

/-- What the parts for comparison stand for in a ring. The factors, none of which is a float or the smallest
word, make up the product of all factors but the sums of no terms. So they stand for the product unless there is
such a sum and the others do not make up `0`. The terms always add up to the sum. -/
theorem value_plainParts :
    (∀ factors : List Expr, (∀ n, .num n ∈ factors → n.Whole) →
      m.signedValue (isNegative factors) (plainFactors factors) =
        (Expr.prod (factors.filter (!·.isEmptySum))).value m.toMeaning ∧
      (m.signedValue (isNegative factors) (plainFactors factors) = (Expr.prod factors).value m.toMeaning ↔
        .sum [] ∉ factors ∨ m.signedValue (isNegative factors) (plainFactors factors) = 0)) ∧
    ∀ terms : List Expr, (∀ t ∈ terms, t.Everywhere (Faithful m.toMeaning)) →
      (Expr.sum (plainTerms terms)).value m.toMeaning = (Expr.sum terms).value m.toMeaning := by
  refine ⟨fun factors hfactors => ⟨signedValue_plainFactors m hfactors, ?_⟩, fun terms hterms => ?_⟩
  · by_cases hempty : .sum [] ∈ factors
    · rw [value_prod_of_emptySum m hempty]
      simp [hempty]
    · rw [signedValue_plainFactors m hfactors, Expr.filter_isEmptySum hempty]
      simp [hempty]
  · rw [Expr.value_sum, Expr.value_sum]
    exact sum_plainTerms (fun a b ha hb _ => Expr.value_buildProd_pair m.num_one m.num_zero ha hb) hterms

end

/-- Integers, with `x = 3` and `y = 5`. -/
def sampleRing : RingMeaning ℤ :=
  { Expr.sampleMeaning with num_int := fun _ => rfl }

/-- The product of `2 * x`, `-3`, the sum of `y` alone and `-1`. -/
def sampleFactors : List Expr :=
  [.prod [2, .sym "x"], .int (-3), .sum [.sym "y"], .int (-1)]

/-- The sum of `x + 1`, the product of `y` alone, `y * (-1)` and `2 * x`. -/
def sampleTerms : List Expr :=
  [.sum [.sym "x", 1], .prod [.sym "y"], .prod [.sym "y", .int (-1)], .prod [2, .sym "x"]]

/-- The factors become `2 * x * 3 * y` with a positive sign, and the terms `x + 1 + y - y + 2 * x`. -/
theorem value_plainParts_sample :
    ((∀ n, .num n ∈ sampleFactors → n.Whole) ∧
      ∀ t ∈ sampleTerms, t.Everywhere (Faithful sampleRing.toMeaning)) ∧
    sampleRing.signedValue (isNegative sampleFactors) (plainFactors sampleFactors) =
      (Expr.prod sampleFactors).value sampleRing.toMeaning ∧
    (Expr.sum (plainTerms sampleTerms)).value sampleRing.toMeaning =
      (Expr.sum sampleTerms).value sampleRing.toMeaning ∧
    (Expr.prod sampleFactors).value sampleRing.toMeaning = 90 := by
  have hwhole : ∀ f ∈ sampleFactors, ∀ n ∈ f.number?, n.Whole := by decide
  have hfactors : ∀ n, .num n ∈ sampleFactors → n.Whole := fun n hn => hwhole _ hn n rfl
  have hunrounded : ∀ t ∈ sampleTerms, t.Everywhere Expr.Unrounded := by
    have hnum (k : Int64) : (Expr.num (.int k)).Everywhere Expr.Unrounded := .num trivial
    have hnat (n : Nat) : (OfNat.ofNat n : Expr).Everywhere Expr.Unrounded := .num trivial
    have hsym (name : String) : (Expr.sym name).Everywhere Expr.Unrounded :=
      .intro trivial fun _ hpart => nomatch hpart
    have hprod (factors : List Expr) (h : ∀ f ∈ factors, f.Everywhere Expr.Unrounded) :
        (Expr.prod factors).Everywhere Expr.Unrounded := .prod trivial h
    have hsum (terms : List Expr) (h : ∀ t ∈ terms, t.Everywhere Expr.Unrounded) :
        (Expr.sum terms).Everywhere Expr.Unrounded := .sum trivial h
    simp [sampleTerms, hprod, hsum, hsym, hnat, Expr.int, hnum]
  have hterms : ∀ t ∈ sampleTerms, t.Everywhere (Faithful sampleRing.toMeaning) :=
    fun t ht => Expr.everywhere_faithful (hunrounded t ht)
  obtain ⟨hproducts, hsums⟩ := value_plainParts sampleRing
  refine ⟨⟨hfactors, hterms⟩, (hproducts _ hfactors).2.2 (.inl ?_), hsums _ hterms, by decide +kernel⟩
  simp [sampleFactors, Expr.int]

/-- Next to `2` and `3` the sum of no terms is left out, so that `6` stands for `0`. -/
theorem value_plainFactors_emptySum :
    (∀ n, .num n ∈ ([.sum [], 2, 3] : List Expr) → n.Whole) ∧
    plainFactors [.sum [], 2, 3] = [2, 3] ∧
    sampleRing.signedValue (isNegative [.sum [], 2, 3]) (plainFactors [.sum [], 2, 3]) = 6 ∧
    (Expr.prod [.sum [], 2, 3]).value sampleRing.toMeaning = 0 := by
  have hwhole : ∀ f ∈ ([.sum [], 2, 3] : List Expr), ∀ n ∈ f.number?, n.Whole := by decide
  exact ⟨fun n hn => hwhole _ hn n rfl, rfl, by decide +kernel, by decide +kernel⟩

end Target

end Workings

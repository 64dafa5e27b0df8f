import Mathlib.Algebra.BigOperators.Intervals
import Mathlib.Algebra.BigOperators.Ring.List
import Workings.LongHand.Multiplication
import Workings.Proofs.Adding

/-!
# Long multiplication of natural numbers

Whatever way is taken, multiplying natural numbers gives their product as long as it is a word, and
every change on the way reduces what is on the sheet (`meets_multiply`). At length this rests on the
table of partial products, which adds up to the product along its diagonals (`sum_partialProducts`).
-/

namespace Workings

open Workings.Expr (Everywhere Plain)
open Work (Meets)

variable {s : Sheet}

/-! ### Partial products -/

section

variable {M : Type*} [AddCommMonoid M]

theorem sum_map_filterMap {α β : Type} (h : α → Option β) (f : β → M) (l : List α) :
    ((l.filterMap h).map f).sum = (l.map fun x => (h x).elim 0 f).sum := by
  induction l with
  | nil => rfl
  | cons x l ih =>
    cases hx : h x with
    | none =>
      rw [List.filterMap_cons_none hx, ih, List.map_cons, List.sum_cons, hx]
      exact (zero_add _).symm
    | some y =>
      rw [List.filterMap_cons_some hx, List.map_cons, List.sum_cons, ih, List.map_cons,
        List.sum_cons, hx]
      rfl

theorem sum_range_getElem? {α : Type} (g : α → M) (l : List α) :
    ∑ x ∈ Finset.range l.length, l[x]?.elim 0 g = (l.map g).sum := by
  induction l with
  | nil => rfl
  | cons a l ih =>
    rw [List.length_cons, Finset.sum_range_succ', List.map_cons, List.sum_cons, ← ih, add_comm]
    rfl

/-- Adding up along the diagonals of a table gives the sum of the table. -/
theorem sum_partialProducts (f : Number → M) (as bs : List Number) :
    ((partialProducts as bs).map f).sum =
      (as.map fun a => (bs.map fun b => f (a * b)).sum).sum := by
  have entry (x y : Nat) : ((do return (← as[x]?) * (← bs[y]?) : Option Number)).elim 0 f =
      as[x]?.elim 0 fun a => bs[y]?.elim 0 fun b => f (a * b) := by
    cases as[x]? with
    | none => rfl
    | some a => cases bs[y]? <;> rfl
  have hdiagonals : ((partialProducts as bs).map f).sum =
      ∑ d ∈ Finset.range (as.length + bs.length - 1), ∑ x ∈ Finset.range (d + 1),
        as[x]?.elim 0 fun a => bs[d - x]?.elim 0 fun b => f (a * b) := by
    unfold partialProducts
    rw [List.flatMap_def, List.map_flatten, List.sum_flatten, List.map_map, List.map_map]
    show _ = ((List.range (as.length + bs.length - 1)).map _).sum
    refine congrArg List.sum (List.map_congr_left fun d _ => ?_)
    show (List.map f (List.filterMap _ _)).sum = ((List.range (d + 1)).map _).sum
    rw [sum_map_filterMap, List.map_reverse, List.sum_reverse]
    exact congrArg List.sum (List.map_congr_left fun x _ => entry x (d - x))
  have row (a : Number) (count : Nat) (hcount : bs.length ≤ count) :
      ∑ y ∈ Finset.range count, (bs[y]?.elim 0 fun b => f (a * b)) =
        (bs.map fun b => f (a * b)).sum := by
    rw [← sum_range_getElem?]
    refine Finset.eventually_constant_sum (fun y hy => ?_) hcount
    rw [List.getElem?_eq_none hy]
    rfl
  have rows : ∀ x ∈ Finset.range (as.length + bs.length - 1),
      (∑ y ∈ Finset.range (as.length + bs.length - 1 - x),
        as[x]?.elim 0 fun a => bs[y]?.elim 0 fun b => f (a * b)) =
      as[x]?.elim 0 fun a => (bs.map fun b => f (a * b)).sum := by
    intro x hx
    cases ha : as[x]? with
    | none => exact Finset.sum_const_zero
    | some a =>
      have hlt : x < as.length := (List.getElem?_eq_some_iff.1 ha).1
      exact row a _ (by omega)
  rw [hdiagonals, Finset.sum_range_diag_flip _
    fun x y => as[x]?.elim 0 fun a => bs[y]?.elim 0 fun b => f (a * b),
    Finset.sum_congr rfl rows, ← sum_range_getElem?]
  by_cases hbs : bs = []
  · subst hbs
    have hzero (x : Nat) :
        (as[x]?.elim 0 fun a => (([] : List Number).map fun b => f (a * b)).sum) = 0 := by
      cases as[x]? <;> rfl
    simp only [hzero, Finset.sum_const_zero]
  · have hlength := List.length_pos_iff.2 hbs
    refine Finset.eventually_constant_sum (fun x hx => ?_) (by omega)
    rw [List.getElem?_eq_none hx]
    rfl

end

theorem partialProducts_mem {as bs : List Number} {c : Number} (h : c ∈ partialProducts as bs) :
    ∃ a ∈ as, ∃ b ∈ bs, c = a * b := by
  unfold partialProducts at h
  obtain ⟨d, -, hd⟩ := List.mem_flatMap.1 h
  obtain ⟨x, -, hx⟩ := List.mem_filterMap.1 hd
  obtain ⟨a, ha, hrest⟩ := Option.bind_eq_some_iff.1 hx
  obtain ⟨b, hb, hab⟩ := Option.bind_eq_some_iff.1 hrest
  cases hab
  exact ⟨a, List.mem_of_getElem? ha, b, List.mem_of_getElem? hb, rfl⟩

/-! ### Multiplication -/

/-- Changing a part of the tree to something that it reduces to. -/
theorem meets_change {part result : Expr} (hpart : part.Everywhere Plain) (hr : part.Replaceable)
    (h : part.Reduces result) (explanation : Option String) (approximate : Bool) :
    Meets .reduction s (Work.changeWith ⟨part, result, explanation, approximate⟩) fun _ => True :=
  Work.meets_changeWith fun _ htree => h.replace hpart hr htree

/-- The magnitude of a number. -/
abbrev Number.size (n : Number) : ℕ :=
  max 1 n.toInt.natAbs

namespace Expr

theorem value_pair {R : Type*} [CommSemiring R] (m : Meaning R) (a b : Expr) :
    (prod [a, b]).value m = a.value m * b.value m := by
  rw [value_prod]
  simp

theorem plain_pair {a b : Expr} (ha : a.Everywhere Plain) (hb : b.Everywhere Plain) :
    (prod [a, b]).Everywhere Plain := by
  refine .prod trivial fun f hf => ?_
  rcases List.mem_pair.1 hf with rfl | rfl
  · exact ha
  · exact hb

theorem plain_productOfNumbers {a b : Number} (ha : a.Natural) (hb : b.Natural) :
    (productOfNumbers a b).Everywhere Plain :=
  plain_pair (.num ha) (.num hb)

theorem reduces_productOfNumbers {a b r : Number} (ha : a.Natural) (hb : b.Natural)
    (hr : r.Natural) (h : r.toInt = a.toInt * b.toInt) :
    (productOfNumbers a b).Reduces (.num r) := by
  refine .to_num (plain_productOfNumbers ha hb) hr fun symbols => ?_
  rw [h]
  exact value_pair _ (.num a) (.num b)

end Expr

theorem partialProducts_ne_nil {as bs : List Number} (has : as ≠ []) (hbs : bs ≠ []) :
    partialProducts as bs ≠ [] := by
  obtain ⟨a, as, rfl⟩ := List.exists_cons_of_ne_nil has
  obtain ⟨b, bs, rfl⟩ := List.exists_cons_of_ne_nil hbs
  intro h
  have hdiagonal := List.flatMap_eq_nil_iff.1 h 0 (List.mem_range.2 (by simp))
  cases hdiagonal

theorem sum_map_mul {R : Type*} [Semiring R] (f g : Number → R) (as bs : List Number) :
    (as.map fun a => (bs.map fun b => f a * g b).sum).sum = (as.map f).sum * (bs.map g).sum := by
  have hrow : (fun a => (bs.map fun b => f a * g b).sum) = fun a => f a * (bs.map g).sum := by
    funext a
    exact List.sum_map_mul_left ..
  rw [hrow, List.sum_map_mul_right]

theorem natAbs_le_of_mem {as : List Number} {a : Number} (ha : a ∈ as) :
    a.toInt.natAbs ≤ (as.map Number.size).sum :=
  le_trans (le_max_right 1 _)
    (List.single_le_sum (fun _ _ => Nat.zero_le _) _ (List.mem_map_of_mem ha))

/-- The products of the components of two integers are exact and add up to the product of the
integers. -/
theorem partialProducts_whole {a b : Number} (ha : a.Whole) (hb : b.Whole)
    (hbound : a.size * b.size < 2 ^ 63) :
    (∀ c ∈ partialProducts a.components b.components, ∃ x ∈ a.components, ∃ y ∈ b.components,
      c.Whole ∧ c.toInt = x.toInt * y.toInt) ∧
      ((partialProducts a.components b.components).map Number.toInt).sum = a.toInt * b.toInt ∧
      ((partialProducts a.components b.components).map Number.size).sum ≤ a.size * b.size := by
  obtain ⟨-, haparts, hasum, hasize⟩ := ha.sum_components
  obtain ⟨-, hbparts, hbsum, hbsize⟩ := hb.sum_components
  have hproduct : ∀ x ∈ a.components, ∀ y ∈ b.components,
      (x * y).Whole ∧ (x * y).toInt = x.toInt * y.toInt := by
    intro x hx y hy
    refine (haparts x hx).1.mul (hbparts y hy).1 ?_
    have hle : x.toInt.natAbs * y.toInt.natAbs ≤ a.size * b.size := by
      refine Nat.mul_le_mul ?_ ?_
      · exact (natAbs_le_of_mem hx).trans_eq hasize
      · exact (natAbs_le_of_mem hy).trans_eq hbsize
    rw [Int.natAbs_mul]
    omega
  refine ⟨fun c hc => ?_, ?_, ?_⟩
  · obtain ⟨x, hx, y, hy, rfl⟩ := partialProducts_mem hc
    exact ⟨x, hx, y, hy, hproduct x hx y hy⟩
  · rw [sum_partialProducts, ← hasum, ← hbsum, ← sum_map_mul]
    refine congrArg List.sum (List.map_congr_left fun x hx => ?_)
    exact congrArg List.sum (List.map_congr_left fun y hy => (hproduct x hx y hy).2)
  · rw [sum_partialProducts]
    calc (a.components.map fun x => (b.components.map fun y => (x * y).size).sum).sum
        ≤ (a.components.map fun x => (b.components.map fun y => x.size * y.size).sum).sum := by
          refine List.sum_le_sum fun x hx => List.sum_le_sum fun y hy => ?_
          unfold Number.size
          rw [(hproduct x hx y hy).2, Int.natAbs_mul]
          refine max_le ?_ (Nat.mul_le_mul (le_max_right _ _) (le_max_right _ _))
          exact Nat.mul_pos (le_max_left 1 _) (le_max_left 1 _)
      _ = a.size * b.size := by
          rw [sum_map_mul]
          exact congrArg₂ (· * ·) hasize hbsize

/-- The products of the components of natural numbers are natural numbers. -/
theorem partialProducts_components {a b : Number} (ha : a.Natural) (hb : b.Natural)
    (hbound : a.size * b.size < 2 ^ 63) :
    (∀ c ∈ partialProducts a.components b.components, c.Natural) ∧
      ((partialProducts a.components b.components).map Number.toInt).sum = a.toInt * b.toInt ∧
      ((partialProducts a.components b.components).map Number.size).sum ≤ a.size * b.size := by
  obtain ⟨-, haparts, -⟩ := ha.sum_components
  obtain ⟨-, hbparts, -⟩ := hb.sum_components
  obtain ⟨hproducts, hsum, hsize⟩ := partialProducts_whole ha.whole hb.whole hbound
  refine ⟨fun c hc => ?_, hsum, hsize⟩
  obtain ⟨x, hx, y, hy, hwhole, hvalue⟩ := hproducts c hc
  refine hwhole.natural ?_
  rw [hvalue]
  exact Int.mul_nonneg (haparts x hx).toInt_nonneg (hbparts y hy).toInt_nonneg

section

variable {a b : Number}

/-- The product of two numbers split into components. -/
def factoredProduct (a b : Number) : Expr :=
  .prod [sumOfNumbers a.components, sumOfNumbers b.components]

theorem plain_factoredProduct (ha : a.Natural) (hb : b.Natural) :
    (factoredProduct a b).Everywhere Plain := by
  obtain ⟨hane, haparts, -, -⟩ := ha.sum_components
  obtain ⟨hbne, hbparts, -, -⟩ := hb.sum_components
  exact Expr.plain_pair (Expr.plain_sumOfNumbers hane haparts)
    (Expr.plain_sumOfNumbers hbne hbparts)

theorem reduces_factoredProduct (ha : a.Natural) (hb : b.Natural) :
    (productOfNumbers a b).Reduces (factoredProduct a b) := by
  obtain ⟨-, -, hasum, hasize⟩ := ha.sum_components
  obtain ⟨-, -, hbsum, hbsize⟩ := hb.sum_components
  refine .of_replaceable (Expr.replaceable_of_not_number rfl) (plain_factoredProduct ha hb)
    (fun symbols => ?_) fun w _ => le_of_eq ?_
  · unfold factoredProduct productOfNumbers
    rw [Expr.value_pair, Expr.value_pair, Expr.value_sumOfNumbers, Expr.value_sumOfNumbers, hasum,
      hbsum, Expr.value_num, Expr.value_num]
    rfl
  · show Expr.value _ (.prod _) = Expr.value _ (.prod _)
    rw [Expr.value_pair, Expr.value_pair]
    change (sumOfNumbers _).bulk w * (sumOfNumbers _).bulk w = _
    rw [Expr.bulk_sumOfNumbers, Expr.bulk_sumOfNumbers, hasize, hbsize, Expr.value_num,
      Expr.value_num]
    rfl

theorem factoredProduct_reduces (ha : a.Natural) (hb : b.Natural)
    (hbound : a.size * b.size < 2 ^ 63) :
    (factoredProduct a b).Reduces (sumOfNumbers (partialProducts a.components b.components)) := by
  obtain ⟨hane, haparts, hasum, hasize⟩ := ha.sum_components
  obtain ⟨hbne, hbparts, hbsum, hbsize⟩ := hb.sum_components
  obtain ⟨hproducts, hsum, hsize⟩ := partialProducts_components ha hb hbound
  refine .of_replaceable (Expr.replaceable_of_not_number rfl)
    (Expr.plain_sumOfNumbers (partialProducts_ne_nil hane hbne) hproducts) (fun symbols => ?_)
    fun w _ => ?_
  · unfold factoredProduct
    rw [Expr.value_pair, Expr.value_sumOfNumbers, Expr.value_sumOfNumbers,
      Expr.value_sumOfNumbers, hasum, hbsum, hsum]
  · show _ ≤ Expr.value _ (.prod _)
    rw [Expr.value_pair]
    change _ ≤ (sumOfNumbers _).bulk w * (sumOfNumbers _).bulk w
    rw [Expr.bulk_sumOfNumbers, Expr.bulk_sumOfNumbers, Expr.bulk_sumOfNumbers, hasize,
      hbsize]
    exact hsize

theorem mul_lt_of_size (ha : a.Natural) (hb : b.Natural) (hbound : a.size * b.size < 2 ^ 63) :
    0 ≤ a.toInt * b.toInt ∧ a.toInt * b.toInt < 2 ^ 63 := by
  have hle : (a.toInt * b.toInt).natAbs ≤ a.size * b.size := by
    rw [Int.natAbs_mul]
    exact Nat.mul_le_mul (le_max_right _ _) (le_max_right _ _)
  have hnonneg := Int.mul_nonneg ha.toInt_nonneg hb.toInt_nonneg
  omega

end

/-- Multiplying by components. -/
theorem meets_multiplyComponents {a b : Int64} (ha : (Number.int a).Natural)
    (hb : (Number.int b).Natural) (hbound : (Number.int a).size * (Number.int b).size < 2 ^ 63) :
    Meets .reduction s (multiplyComponents a b (.int a) (.int b))
      fun r => r.Natural ∧ r.toInt = (Number.int a).toInt * (Number.int b).toInt := by
  unfold multiplyComponents
  refine Work.meets_options.bind fun options t _ _ => ?_
  extract_lets exact as bs products factored done add table
  obtain ⟨hane, -, -, -⟩ := ha.sum_components
  obtain ⟨hbne, -, -, -⟩ := hb.sum_components
  obtain ⟨hproducts, hsum, -⟩ := partialProducts_components ha hb hbound
  obtain ⟨hlow, hhigh⟩ := mul_lt_of_size ha hb hbound
  have hne : products ≠ [] := partialProducts_ne_nil hane hbne
  have hexact : exact.Natural ∧ exact.toInt = (Number.int a).toInt * (Number.int b).toInt :=
    Number.natural_ofInt hlow hhigh
  have hdone : ∀ u t, Meets .reduction t (done u)
      fun r => r.Natural ∧ r.toInt = (Number.int a).toInt * (Number.int b).toInt :=
    fun u t => .pure hexact
  have hadd : ∀ u t, Meets .reduction t (add u)
      fun r => r.Natural ∧ r.toInt = (Number.int a).toInt * (Number.int b).toInt := by
    intro u t
    have hcolumns : Meets .reduction t (addComponents products)
        fun r => r.Natural ∧ r.toInt = (products.map Number.toInt).sum :=
      .weaken Progress.reduction_of_addition
        (meets_addComponents hne hproducts (by rw [hsum]; exact hhigh))
    refine hcolumns.bind fun r t _ hr => .ite (fun hdiffer => ?_) fun _ => hdone () t
    have hsame : r = exact := hr.1.eq_of_toInt hexact.1 (by rw [hr.2, hexact.2, hsum])
    rw [hsame, hexact.1.whole.beq_self] at hdiffer
    cases hdiffer
  have htable : ∀ u t, Meets .reduction t (table u)
      fun r => r.Natural ∧ r.toInt = (Number.int a).toInt * (Number.int b).toInt := by
    intro u t
    refine (meets_change (plain_factoredProduct ha hb) (Expr.replaceable_of_not_number rfl)
      (factoredProduct_reduces ha hb hbound) none false).bind fun _ t _ _ =>
        .ite (fun _ => ?_) fun _ => ?_
    · refine .ite (fun _ => ?_) fun _ => hadd () t
      refine (Work.meets_wording ..).bind fun text t _ _ => ?_
      exact (Work.meets_remark text false).bind fun u t _ _ => hadd u t
    · refine (meets_change (Expr.plain_sumOfNumbers hne hproducts)
        (Expr.replaceable_of_not_number rfl) ?_ none false).bind fun u t _ _ => hdone u t
      exact Expr.reduces_sumOfNumbers hne hproducts hexact.1 (by rw [hexact.2, hsum])
  refine (meets_change (Expr.plain_productOfNumbers ha hb) (Expr.replaceable_of_not_number rfl)
    (reduces_factoredProduct ha hb) none false).bind fun _ t _ _ =>
      .ite (fun _ => ?_) fun _ => htable () t
  refine (Work.meets_wording ..).bind fun text t _ _ => ?_
  refine (Work.meets_remark text false).bind fun _ t _ _ => ?_
  exact (Work.meets_remark _ false).bind fun u t _ _ => htable u t

/-! ### Scaling -/

/-- The power of ten that a product of scaled factors is scaled back by. -/
theorem plain_powerOfTen {k : Nat} (hlow : 1 ≤ k) (hhigh : k ≤ 18) :
    (Expr.pow 10 (.int (Int64.ofInt k))).Everywhere Plain := by
  have hvalue : (Int64.ofInt k).toInt = k := toInt_ofInt ⟨by omega, by omega⟩
  refine .intro ⟨rfl, _, rfl, by omega, by omega⟩ fun part hpart => ?_
  rcases List.mem_pair.1 hpart with rfl | rfl
  · exact .num (show Number.Natural 10 by decide)
  · exact .num (show 0 ≤ (Int64.ofInt k).toInt by omega)

theorem value_powerOfTen {k : Nat} (hhigh : k ≤ 18) (symbols : String → ℤ) :
    (Expr.pow 10 (.int (Int64.ofInt k))).value (.integers symbols) = 10 ^ k := by
  have hvalue : (Int64.ofInt k).toInt = k := toInt_ofInt ⟨by omega, by omega⟩
  show (10 : ℤ) ^ (Int64.ofInt k).toInt.toNat = 10 ^ k
  rw [hvalue]
  rfl

theorem bulk_powerOfTen {k : Nat} (hlow : 1 ≤ k) (hhigh : k ≤ 18) (w : ℕ) :
    (Expr.pow 10 (.int (Int64.ofInt k))).bulk w = 10 ^ k := by
  have hvalue : (Int64.ofInt k).toInt = k := toInt_ofInt ⟨by omega, by omega⟩
  rw [Expr.bulk_power, hvalue]
  congr 1
  omega

theorem Number.Natural.isFinite {n : Number} (h : n.Natural) : n.isFinite = true := by
  cases n with
  | float x => exact h.elim
  | int n => rfl

/-- Scaling a product back. -/
theorem meets_scaleBack {exact : Number} {k : Nat} (hexact : exact.Natural) (hlow : 1 ≤ k)
    (hhigh : k ≤ 18) (hbound : exact.toInt * 10 ^ k < 2 ^ 63) :
    Meets .reduction s (scaleBack exact k)
      fun e => ∃ r : Number, e = .num r ∧ r.Natural ∧ r.toInt = exact.toInt * 10 ^ k := by
  have hpower := powerOfTen_eq hhigh
  have hvalue : (exact * powerOfTen k).Natural ∧
      (exact * powerOfTen k).toInt = exact.toInt * 10 ^ k := by
    have hnatural : (powerOfTen k).Natural := by
      refine hpower.1.natural ?_
      rw [hpower.2]
      exact Int.pow_nonneg (by decide)
    have hproduct := hexact.mul hnatural (by rw [hpower.2]; exact hbound)
    rw [hpower.2] at hproduct
    exact hproduct
  unfold scaleBack
  extract_lets scaled value
  have hscaled : value = exact * powerOfTen k := if_pos (by omega)
  have hplain : scaled.Everywhere Plain := Expr.plain_pair (.num hexact) (plain_powerOfTen hlow hhigh)
  rw [hscaled]
  refine .ite (fun _ => ?_) fun hnot => ?_
  · refine (meets_change hplain (Expr.replaceable_of_not_number rfl) ?_ none false).bind
      fun _ t _ _ => .pure ⟨_, rfl, hvalue⟩
    refine .to_num hplain hvalue.1 fun symbols => ?_
    rw [Expr.value_pair, value_powerOfTen hhigh, hvalue.2, Expr.value_num]
    rfl
  · exact absurd hvalue.1.isFinite hnot

/-- Only a decimal is rounded. -/
theorem meets_approximateFactor (name : FactorName) (record : Bool) {x : Number}
    (hx : x.Natural) : Meets .reduction s (approximateFactor name record x) fun r => r = x := by
  obtain ⟨k, hexponent, -⟩ := hx.whole.scale_eq
  unfold approximateFactor
  refine Work.meets_options.bind fun options t _ _ => ?_
  dsimp only
  rw [hexponent]
  refine .ite (fun _ => .pure rfl) fun hnot => ?_
  simp at hnot

theorem meets_remarkOnShift (name : FactorName) (x : Number) (exponent : Int) :
    Meets .reduction s (remarkOnShift name x exponent) fun _ => True :=
  meets_remarkOn ..

/-- A natural number without its trailing zeros. -/
theorem Number.Natural.scale_eq {n : Number} (hn : n.Natural) :
    ∃ (c : Int64) (k : Nat), n.scale = (.int c, (k : Int)) ∧ (Number.int c).Natural ∧
      (Number.int c).toInt * 10 ^ k = n.toInt ∧ (Number.int c).size * 10 ^ k = n.size := by
  obtain ⟨k, hexponent, hwhole, hvalue, hsize⟩ := hn.whole.scale_eq
  rcases hscale : n.scale with ⟨c, e⟩
  rw [hscale] at hexponent hwhole hvalue hsize
  dsimp only at hexponent hwhole hvalue hsize
  cases c with
  | float x => exact hwhole.elim
  | int c =>
    subst hexponent
    refine ⟨c, k, rfl, hwhole.natural ?_, hvalue, hsize⟩
    by_contra hneg
    have hneg' : (Number.int c).toInt * 10 ^ k < 0 :=
      Int.mul_neg_of_neg_of_pos (by omega) (Int.pow_pos (by decide))
    have := hn.toInt_nonneg
    omega

/-- A product may be written as the product of its scaled factors and a power of ten. -/
theorem reduces_scaledProduct {a b ca cb : Number} {k : Nat} (hca : ca.Natural) (hcb : cb.Natural)
    (hlow : 1 ≤ k) (hhigh : k ≤ 18) (hvalue : ca.toInt * cb.toInt * 10 ^ k = a.toInt * b.toInt)
    (hsize : ca.size * cb.size * 10 ^ k = a.size * b.size) :
    (productOfNumbers a b).Reduces
      (.prod [.num ca, .num cb, .pow 10 (.int (Int64.ofInt k))]) := by
  refine .of_replaceable (Expr.replaceable_of_not_number rfl) ?_ (fun symbols => ?_)
    fun w _ => le_of_eq ?_
  · refine .prod trivial fun f hf => ?_
    simp only [List.mem_cons, List.not_mem_nil, or_false] at hf
    obtain rfl | rfl | rfl := hf
    · exact .num hca
    · exact .num hcb
    · exact plain_powerOfTen hlow hhigh
  · unfold productOfNumbers
    rw [Expr.value_pair, Expr.value_prod, List.map_cons, List.map_cons, List.map_cons,
      List.map_nil, List.prod_cons, List.prod_cons, List.prod_cons, List.prod_nil,
      value_powerOfTen hhigh, mul_one, ← mul_assoc]
    simp only [Expr.value_num]
    exact hvalue
  · rw [Expr.bulk_prod, List.map_cons, List.map_cons, List.map_cons, List.map_nil,
      List.prod_cons, List.prod_cons, List.prod_cons, List.prod_nil,
      bulk_powerOfTen hlow hhigh, mul_one, ← mul_assoc]
    show _ = Expr.value _ (.prod _)
    rw [Expr.value_pair]
    unfold Expr.bulk
    simp only [Expr.value_num]
    exact hsize

/-- Two factors without their trailing zeros, of which there are so many. -/
structure Scaled (a b : Number) (ca cb : Int64) (ka kb : Nat) : Prop where
  left : a.scale = (.int ca, (ka : Int))
  right : b.scale = (.int cb, (kb : Int))
  leftNatural : (Number.int ca).Natural
  rightNatural : (Number.int cb).Natural
  leftValue : (Number.int ca).toInt * 10 ^ ka = a.toInt
  rightValue : (Number.int cb).toInt * 10 ^ kb = b.toInt
  size : (Number.int ca).size * (Number.int cb).size * 10 ^ (ka + kb) = a.size * b.size

theorem Number.Natural.scaled {a b : Number} (ha : a.Natural) (hb : b.Natural) :
    ∃ ca cb ka kb, Scaled a b ca cb ka kb := by
  obtain ⟨ca, ka, hascale, hca, havalue, hasize⟩ := ha.scale_eq
  obtain ⟨cb, kb, hbscale, hcb, hbvalue, hbsize⟩ := hb.scale_eq
  refine ⟨ca, cb, ka, kb, hascale, hbscale, hca, hcb, havalue, hbvalue, ?_⟩
  rw [← hasize, ← hbsize, pow_add]
  ac_rfl

namespace Scaled

variable {a b : Number} {ca cb : Int64} {ka kb : Nat}

theorem value (h : Scaled a b ca cb ka kb) :
    (Number.int ca).toInt * (Number.int cb).toInt * 10 ^ (ka + kb) = a.toInt * b.toInt := by
  rw [← h.leftValue, ← h.rightValue, pow_add]
  ac_rfl

/-- Where the product fits, that of the scaled factors does, and so does the power of ten. -/
theorem bounds (h : Scaled a b ca cb ka kb) (hbound : a.size * b.size < 2 ^ 63) :
    ka + kb ≤ 18 ∧ (Number.int ca).size * (Number.int cb).size < 2 ^ 63 := by
  have hpos : 1 ≤ (Number.int ca).size * (Number.int cb).size :=
    Nat.mul_pos (le_max_left 1 _) (le_max_left 1 _)
  have hone : 1 ≤ 10 ^ (ka + kb) := Nat.one_le_pow _ _ (by decide)
  exact ⟨le_eighteen (lt_of_le_of_lt (Nat.le_mul_of_pos_left _ hpos) (h.size ▸ hbound)),
    lt_of_le_of_lt (Nat.le_mul_of_pos_right _ hone) (h.size ▸ hbound)⟩

/-- Factors without trailing zeros are scaled by nothing. -/
theorem one_le (h : Scaled a b ca cb ka kb) (ha : a.Natural) (hb : b.Natural)
    (hshifted : (!(a == .int ca) || !(b == .int cb)) = true) : 1 ≤ ka + kb := by
  by_contra hzero
  obtain ⟨rfl, rfl⟩ : ka = 0 ∧ kb = 0 := by omega
  have haself : a = .int ca := ha.eq_of_toInt h.leftNatural (by simpa using h.leftValue.symm)
  have hbself : b = .int cb := hb.eq_of_toInt h.rightNatural (by simpa using h.rightValue.symm)
  rw [haself, hbself, h.leftNatural.whole.beq_self, h.rightNatural.whole.beq_self] at hshifted
  cases hshifted

end Scaled

/-- Multiplying at length. -/
theorem meets_multiplyAtLength {a b : Number} (ha : a.Natural) (hb : b.Natural)
    (hbound : a.size * b.size < 2 ^ 63) :
    Meets .reduction s (multiplyAtLength a b)
      fun e => ∃ r : Number, e = .num r ∧ r.Natural ∧ r.toInt = a.toInt * b.toInt := by
  obtain ⟨ca, cb, ka, kb, hscaled⟩ := ha.scaled hb
  obtain ⟨hhigh, hsmall⟩ := hscaled.bounds hbound
  obtain ⟨-, hproduct⟩ := mul_lt_of_size ha hb hbound
  have hca := hscaled.leftNatural
  have hcb := hscaled.rightNatural
  unfold multiplyAtLength
  refine Work.meets_options.bind fun options t _ _ => ?_
  extract_lets finish work
  have hfinish : ∀ r t, r.Natural ∧ r.toInt = a.toInt * b.toInt →
      Meets .reduction t (finish (.num r))
        fun e => ∃ r : Number, e = .num r ∧ r.Natural ∧ r.toInt = a.toInt * b.toInt :=
    fun r t hr => meets_pause.bind fun _ t _ _ => .pure ⟨r, rfl, hr⟩
  have hwork : ∀ u t, Meets .reduction t (work u)
      fun e => ∃ r : Number, e = .num r ∧ r.Natural ∧ r.toInt = a.toInt * b.toInt := by
    intro u t
    refine (meets_approximateFactor .left true ha).bind fun a' t _ ha' => ?_
    subst ha'
    refine (meets_approximateFactor .right _ hb).bind fun b' t _ hb' => ?_
    subst hb'
    rw [hscaled.left, hscaled.right]
    dsimp only [Number.toWord?, Number.normalize]
    refine .iteBind (fun _ => meets_remarkOnShift ..) fun _ t _ => ?_
    refine .iteBind (fun _ => meets_remarkOnShift ..) fun _ t _ => ?_
    refine .ite (fun hshifted => ?_) fun hplain => ?_
    · have hlow := hscaled.one_le ha hb hshifted
      simp only [if_pos hshifted]
      refine (meets_change (Expr.plain_productOfNumbers ha hb) (Expr.replaceable_of_not_number rfl)
        (reduces_scaledProduct hca hcb hlow hhigh hscaled.value hscaled.size) none false).bind
          fun _ t _ _ => ?_
      refine (meets_multiplyComponents hca hcb hsmall).bind fun exact t _ hexact => ?_
      refine (meets_scaleBack hexact.1 hlow hhigh ?_).bind fun e t _ he => ?_
      · rw [hexact.2, hscaled.value]
        exact hproduct
      · obtain ⟨r, rfl, hr, hrvalue⟩ := he
        exact hfinish r t ⟨hr, by rw [hrvalue, hexact.2, hscaled.value]⟩
    · simp only [if_neg hplain]
      refine (meets_multiplyComponents hca hcb hsmall).bind fun exact t _ hexact => ?_
      refine hfinish exact t ⟨hexact.1, ?_⟩
      obtain ⟨haself, hbself⟩ : (a' == Number.int ca) = true ∧ (b' == Number.int cb) = true := by
        simpa using hplain
      rw [hexact.2, ha.whole.eq_of_same hca.whole haself, hb.whole.eq_of_same hcb.whole hbself]
  refine .ite (fun _ => ?_) fun _ => hwork () t
  refine (Work.meets_wording ..).bind fun text t _ _ => ?_
  exact (Work.meets_remark text false).bind fun u t _ _ => hwork u t

theorem meets_estimateProduct? (a b : Number) :
    Meets .reduction s (estimateProduct? a b) fun estimate => estimate = none := by
  unfold estimateProduct?
  refine Work.meets_options.bind fun options t _ hoptions => ?_
  rw [hoptions.2.magnitudeThreshold]
  exact .pure rfl

theorem meets_multiplyPlainly {a b : Number} (ha : a.Natural) (hb : b.Natural)
    (hbound : a.size * b.size < 2 ^ 63) :
    Meets .reduction s (multiplyPlainly a b)
      fun e => ∃ r : Number, e = .num r ∧ r.Natural ∧ r.toInt = a.toInt * b.toInt := by
  have hquick := ha.mul hb (mul_lt_of_size ha hb hbound).2
  unfold multiplyPlainly multiplyWith
  refine Work.meets_options.bind fun options t _ _ => ?_
  extract_lets expression quick limit compact
  have hchange : ∀ (t : Sheet) explanation,
      Meets .reduction t (Work.changeWith ⟨expression, .num quick, explanation, false⟩)
        fun _ => True := fun t explanation =>
    meets_change (Expr.plain_productOfNumbers ha hb) (Expr.replaceable_of_not_number rfl)
      (Expr.reduces_productOfNumbers ha hb hquick.1 hquick.2) explanation false
  refine .ite (fun _ => ?_) fun _ => ?_
  · exact (hchange t none).bind fun _ t _ _ => .pure ⟨quick, rfl, hquick⟩
  refine (meets_estimateProduct? a b).bind fun estimate t _ hestimate => ?_
  subst hestimate
  refine .ite (fun _ => ?_) fun _ => .ite (fun _ => ?_) fun _ => ?_
  · refine (meets_calculatorMessage ..).bind fun message t _ _ => ?_
    exact (hchange t (some message)).bind fun _ t _ _ => .pure ⟨quick, rfl, hquick⟩
  · exact (hchange t none).bind fun _ t _ _ => .pure ⟨quick, rfl, hquick⟩
  · exact meets_multiplyAtLength ha hb hbound

/-- Multiplying two natural numbers. -/
theorem meets_multiply (quick : Bool) {a b : Number} (ha : a.Natural) (hb : b.Natural)
    (hbound : a.size * b.size < 2 ^ 63) :
    Meets .reduction s (multiply quick a b)
      fun e => ∃ r : Number, e = .num r ∧ r.Natural ∧ r.toInt = a.toInt * b.toInt := by
  unfold multiply
  refine Work.meets_options.bind fun options t _ hoptions => ?_
  rw [hoptions.2.roundAndAdjust, Bool.and_false]
  exact meets_multiplyPlainly ha hb hbound

end Workings

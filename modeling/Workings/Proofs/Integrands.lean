import Mathlib.Algebra.Polynomial.Derivation
import Workings.Proofs.Differentiating
import Workings.Proofs.Equality

/-!
# Integrals that are differentiated

An indefinite integral over a variable is bound in that variable and varies with it all the same, so
differentiation gives its integrand back. Below the root of an expression only free symbols are looked for:
a sum or a product in which the variable is not free is taken for a constant, also if it has such an integral
in it. So the derivative is right as long as the variable is free in every sum and product with an integral
in it (`Expr.value_differentiate_integrals`), whatever the integrands are, and the derivative of `3 * ∫ x dx`
is `0` (`Expr.differentiate_hidden_integral`).
-/

namespace Workings

variable {R : Type*} [CommRing R]

/-- The laws of an interpretation in which an integral over `x` has its integrand for a derivative: numbers
that compare equal to an integer stand for it, and other symbols than `x` are constants. -/
structure Meaning.Recovers (m : Meaning R) (D : Derivation ℤ R R) (x : String) : Prop where
  num : ∀ (n : Number) (k : Int64), (n == .int k) = true → m.num n = k.toInt
  sym_self : D (m.sym x) = 1
  sym_other : ∀ y, y ≠ x → D (m.sym y) = 0
  integral : ∀ g : Expr, D ((g.indefinite x).value m) = g.value m

namespace Meaning.Recovers

variable {m : Meaning R} {D : Derivation ℤ R R} {x : String} (hm : m.Recovers D x)

include hm

theorem num_int (k : Int64) : m.num (.int k) = k.toInt :=
  hm.num _ _ (beq_self_eq_true k)

theorem num_zero : m.num 0 = 0 :=
  (hm.num_int 0).trans (by simp)

theorem num_one : m.num 1 = 1 :=
  (hm.num_int 1).trans (by simp)

theorem faithful (e : Expr) : e.Faithful m := by
  intro k h
  cases e with
  | num n => rw [Expr.value_num, hm.num n k h, hm.num_int]
  | sym _ | sum _ | prod _ | pow _ _ | call _ _ _ _ | deriv _ _ | integral _ _ _ _ => cases h

end Meaning.Recovers

namespace Expr

variable {x : String}

/-- Sums and products, nested in any way, of integers, symbols and indefinite integrals over `x`. -/
inductive Integrated (x : String) : Expr → Prop
  | int (k : Int64) : Integrated x (.num (.int k))
  | sym (name : String) : Integrated x (.sym name)
  | integral (g : Expr) : Integrated x (g.indefinite x)
  | sum {terms : List Expr} (h : ∀ t ∈ terms, Integrated x t) : Integrated x (.sum terms)
  | prod {factors : List Expr} (h : ∀ f ∈ factors, Integrated x f) : Integrated x (.prod factors)

mutual

/-- Whether `x` is free in every sum and product with an integral in it. Integrands are not looked into. -/
def shows (x : String) : Expr → Bool
  | .sum terms => (!anyCalculus terms || anyMentions x terms) && allShow x terms
  | .prod factors => (!anyCalculus factors || anyMentions x factors) && allShow x factors
  | _ => true

/-- `shows` in all expressions of a list. -/
def allShow (x : String) : List Expr → Bool
  | [] => true
  | e :: es => shows x e && allShow x es

end

theorem allShow_iff {es : List Expr} : allShow x es = true ↔ ∀ e ∈ es, e.shows x = true := by
  induction es with
  | nil => exact ⟨fun _ _ h => (nomatch h), fun _ => rfl⟩
  | cons e es ih => rw [allShow, Bool.and_eq_true_iff, ih, List.forall_mem_cons]

section

variable {m : Meaning R} {D : Derivation ℤ R R} (hm : m.Recovers D x)

include hm

/-- Without an integral, an expression in which the variable is not free is a constant. -/
theorem derivation_value_of_not_mentions {e : Expr} (he : e.Integrated x) (hcalculus : e.hasCalculus = false)
    (hx : e.mentions x = false) : D (e.value m) = 0 := by
  induction he with
  | int k => rw [value_num, hm.num_int, D.map_intCast]
  | sym name => exact hm.sym_other name (beq_eq_false_iff_ne.1 hx)
  | integral g => cases hcalculus
  | sum _ ih =>
    rw [value_sum]
    exact derivation_sum_eq_zero (List.forall_mem_map.2 fun t ht =>
      ih t ht (anyCalculus_eq_false_iff.1 hcalculus t ht) (anyMentions_eq_false_iff.1 hx t ht))
  | prod _ ih =>
    rw [value_prod]
    exact derivation_prod_eq_zero (List.forall_mem_map.2 fun f hf =>
      ih f hf (anyCalculus_eq_false_iff.1 hcalculus f hf) (anyMentions_eq_false_iff.1 hx f hf))

/-- So is a sum or product in which the variable is not free, unless it hides an integral. -/
theorem derivation_value_of_hides_nothing {e : Expr} (he : e.Integrated x)
    (hhides : (!e.hasCalculus || e.mentions x) = true) (hx : e.mentions x = false) :
    D (e.value m) = 0 := by
  rw [hx, Bool.or_false, Bool.not_eq_true'] at hhides
  exact derivation_value_of_not_mentions hm he hhides hx

omit hm in
theorem differentiate_sym (name x : String) :
    (Expr.sym name).differentiate x = if name = x then 1 else 0 := by
  split <;> rename_i hname <;>
    simp [differentiate, derivativeFrom, varies, mentions, stepDerivative, hname]

omit hm in
/-- What is below the root is looked at only if the variable is free. -/
theorem differentiate_sum (x : String) (terms : List Expr) : (Expr.sum terms).differentiate x =
    if anyMentions x terms then buildSum (terms.map (differentiate x)) else 0 := by
  rw [differentiate_eq, applyDerivativeRule, differentiateAll_eq_map]
  rfl

omit hm in
theorem differentiate_prod (x : String) (factors : List Expr) : (Expr.prod factors).differentiate x =
    if anyMentions x factors then buildSum (productTerms [] factors (factors.map (differentiate x)))
    else 0 := by
  rw [differentiate_eq, applyDerivativeRule, differentiateAll_eq_map]
  rfl

omit hm in
theorem differentiate_indefinite (g : Expr) (x : String) : (g.indefinite x).differentiate x = g := by
  simp [indefinite, differentiate, derivativeFrom, varies, bounds?, stepDerivative]

/-- The value of the derivative is the derivative of the value, if no sum or product hides an integral: an
integral over the variable counts with its integrand, at any depth of sums and products. -/
theorem value_differentiate_integrals {e : Expr} (he : e.Integrated x) (hshows : e.shows x = true) :
    (e.differentiate x).value m = D (e.value m) := by
  have hfaithful (e : Expr) (_ : True) : e.Faithful m := hm.faithful e
  induction he with
  | int k => exact hm.num_zero.trans (by rw [value_num, hm.num_int, D.map_intCast])
  | sym name =>
    rw [differentiate_sym]
    split
    · rename_i hname
      subst hname
      exact hm.num_one.trans hm.sym_self.symm
    · rename_i hname
      exact hm.num_zero.trans (hm.sym_other name hname).symm
  | integral g => rw [differentiate_indefinite, hm.integral]
  | @sum terms hparts ih =>
    obtain ⟨hhere, hterms⟩ := Bool.and_eq_true_iff.1 hshows
    cases hx : anyMentions x terms with
    | true =>
      rw [differentiate_sum, hx, if_pos rfl,
        value_buildSum_of_faithful hm.num_zero fun t _ => hm.faithful t, List.map_map, value_sum,
        map_list_sum, List.map_map]
      exact congrArg List.sum (List.map_congr_left fun t ht => ih t ht (allShow_iff.1 hterms t ht))
    | false =>
      rw [differentiate_sum, hx, if_neg Bool.false_ne_true,
        derivation_value_of_hides_nothing hm (.sum hparts) hhere hx]
      exact hm.num_zero
  | @prod factors hparts ih =>
    obtain ⟨hhere, hfactors⟩ := Bool.and_eq_true_iff.1 hshows
    cases hx : anyMentions x factors with
    | true =>
      have hnone : ∀ f ∈ ([] : List Expr), True := fun _ _ => trivial
      have hrule := sum_productTerms hm.num_zero hm.num_one hfaithful (fun _ _ _ _ => trivial) hnone
        fun f hf => ⟨trivial, trivial, ih f hf (allShow_iff.1 hfactors f hf)⟩
      rw [differentiate_prod, hx, if_pos rfl,
        value_buildSum_of_faithful hm.num_zero fun t _ => hm.faithful t, hrule, value_prod, List.map_nil,
        List.prod_nil, one_mul]
    | false =>
      rw [differentiate_prod, hx, if_neg Bool.false_ne_true,
        derivation_value_of_hides_nothing hm (.prod hparts) hhere hx]
      exact hm.num_zero

end

end Expr

/-! ### Polynomials -/

namespace Polynomials

open Polynomial

noncomputable section

/-- The antiderivative of a polynomial without a constant term. -/
def antiderivative (p : ℚ[X]) : ℚ[X] :=
  p.sum fun n a => monomial (n + 1) (a / (n + 1))

theorem derivative_antiderivative (p : ℚ[X]) : derivative (antiderivative p) = p := by
  unfold antiderivative
  rw [sum_def, derivative_sum]
  conv_rhs => rw [← sum_monomial_eq p, sum_def]
  refine Finset.sum_congr rfl fun n _ => ?_
  rw [derivative_monomial, Nat.cast_add, Nat.cast_one, div_mul_cancel₀ _ (Nat.cast_add_one_ne_zero n)]
  rfl

/-- The derivative of polynomials. -/
def derivation : Derivation ℤ ℚ[X] ℚ[X] :=
  derivative'.restrictScalars ℤ

/-- Polynomials in `x` as values. Other symbols stand for one, and so does what is not a polynomial. -/
def meaning (x : String) : Meaning ℚ[X] where
  num n := n.normalize.toInt
  sym y := if y = x then X else 1
  pow _ _ := 1
  call _ _ _ _ := 1
  deriv _ _ := 1
  integral p _ _ _ := antiderivative p

theorem sym_self (x : String) : (meaning x).sym x = X :=
  if_pos rfl

theorem recovers (x : String) : (meaning x).Recovers derivation x where
  num n k h := by
    show ((n.normalize.toInt : ℤ) : ℚ[X]) = _
    rw [(Number.same_iff n (.int k)).1 h]
    rfl
  sym_self := (congrArg derivative (sym_self x)).trans derivative_X
  sym_other y hy := by
    show derivative (if y = x then X else 1) = _
    rw [if_neg hy, derivative_one]
  integral g := derivative_antiderivative _

end

end Polynomials

namespace Expr

/-- `x * (2 + x * ∫ x dx)`, with polynomials as values. -/
theorem value_differentiate_integrals_polynomial :
    let e := Expr.prod [.sym "x", .sum [2, .prod [.sym "x", indefinite (.sym "x") "x"]]]
    (e.differentiate "x").value (Polynomials.meaning "x") =
      Polynomials.derivation (e.value (Polynomials.meaning "x")) := by
  intro e
  have hinner : (Expr.prod [.sym "x", indefinite (.sym "x") "x"]).Integrated "x" :=
    .prod (List.forall_mem_cons.2 ⟨.sym "x", List.forall_mem_singleton.2 (.integral _)⟩)
  have hsum : (Expr.sum [2, .prod [.sym "x", indefinite (.sym "x") "x"]]).Integrated "x" :=
    .sum (List.forall_mem_cons.2 ⟨.int 2, List.forall_mem_singleton.2 hinner⟩)
  have he : e.Integrated "x" :=
    .prod (List.forall_mem_cons.2 ⟨.sym "x", List.forall_mem_singleton.2 hsum⟩)
  exact value_differentiate_integrals (Polynomials.recovers "x") he (by decide +kernel)

/-- The product `3 * ∫ x dx` hides the integral: its derivative comes out as `0`, and not as `3 * x`. -/
theorem differentiate_hidden_integral :
    let e := Expr.prod [3, indefinite (.sym "x") "x"]
    e.Integrated "x" ∧ (Polynomials.meaning "x").Recovers Polynomials.derivation "x" ∧
      e.differentiate "x" = 0 ∧
      Polynomials.derivation (e.value (Polynomials.meaning "x")) =
        (Expr.prod [3, .sym "x"]).value (Polynomials.meaning "x") ∧
      (e.differentiate "x").value (Polynomials.meaning "x") ≠
        Polynomials.derivation (e.value (Polynomials.meaning "x")) := by
  intro e
  have hm := Polynomials.recovers "x"
  have he : e.Integrated "x" :=
    .prod (List.forall_mem_cons.2 ⟨.int 3, List.forall_mem_singleton.2 (.integral _)⟩)
  have hzero : e.differentiate "x" = 0 := rfl
  have hsym : (Expr.sym "x").value (Polynomials.meaning "x") = Polynomial.X :=
    Polynomials.sym_self "x"
  have hthree : (3 : Expr).value (Polynomials.meaning "x") = 3 := (hm.num_int 3).trans (by simp)
  have hconst : Polynomials.derivation 3 = 0 := Polynomials.derivation.map_natCast 3
  have hintegral : Polynomials.derivation ((indefinite (.sym "x") "x").value (Polynomials.meaning "x")) =
      Polynomial.X :=
    (hm.integral (.sym "x")).trans hsym
  have hderivative : Polynomials.derivation (e.value (Polynomials.meaning "x")) = 3 * Polynomial.X := by
    rw [value_prod, List.map_cons, List.map_singleton, List.prod_cons, List.prod_singleton, hthree,
      Derivation.leibniz, hintegral, hconst, smul_zero, add_zero, smul_eq_mul]
  have hvalue : (e.differentiate "x").value (Polynomials.meaning "x") = 0 := hm.num_zero
  refine ⟨he, hm, hzero, ?_, ?_⟩
  · rw [hderivative, value_prod, List.map_cons, List.map_singleton, List.prod_cons, List.prod_singleton,
      hthree, hsym]
  · rw [hderivative, hvalue]
    intro h
    have hone := congrArg (Polynomial.eval 1) h
    simp at hone

end Expr

end Workings

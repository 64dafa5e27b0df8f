import Mathlib.Algebra.Order.Ring.Nat
import Mathlib.Algebra.Ring.Int.Defs
import Workings.Proofs.Replacing

/-!
# Expressions over the natural numbers

`Expr.Plain` are the nodes of expressions built from natural numbers, symbols, sums of at least one term
and products, with powers of ten, which long multiplication puts into the tree. In such an expression
every occurrence of a target that cannot stand in a power of ten (`Expr.Replaceable`) is an occurrence
with its own sign, so replacements stay among these expressions (`Expr.plain_replace`), keep their
values (`Expr.value_replace`), and do not make them larger (`Expr.bulk_replace`).
-/

namespace Workings

open Workings.Expr (Everywhere Regular)

namespace Number

/-- A natural number in a word. -/
def Natural : Number → Prop
  | .int n => 0 ≤ n.toInt
  | .float _ => False

instance (n : Number) : Decidable n.Natural :=
  match n with
  | .int n => inferInstanceAs (Decidable (0 ≤ n.toInt))
  | .float _ => isFalse id

theorem Natural.whole {n : Number} (h : n.Natural) : n.Whole := by
  cases n with
  | float x => exact h
  | int n =>
    rintro rfl
    exact absurd h (by decide)

theorem Natural.isNegative {n : Number} (h : n.Natural) : n.isNegative = false := by
  cases n with
  | float x => exact h.elim
  | int n =>
    refine decide_eq_false ?_
    rw [Int64.lt_iff_toInt_lt]
    exact Int.not_lt.2 h

theorem Natural.abs {n : Number} (h : n.Natural) : n.abs = n := by
  unfold Number.abs
  rw [h.isNegative]
  rfl

/-- Only zero is a natural number with both signs. -/
theorem Natural.neg_eq {n : Number} (h : n.Natural) (hneg : (-n).Natural) : -n = n := by
  cases n with
  | float x => exact h.elim
  | int n =>
    rw [neg_int h.whole] at hneg ⊢
    have hle : 0 ≤ (-n).toInt := hneg
    have hnonneg : 0 ≤ n.toInt := h
    rw [toInt_neg h.whole] at hle
    have hzero : n = 0 := Int64.toInt_inj.1 (show n.toInt = 0 by omega)
    rw [hzero]
    rfl

end Number

namespace Expr

/-- A node of an expression over the natural numbers. -/
def Plain : Expr → Prop
  | .num n => n.Natural
  | .sym _ => True
  | .sum terms => terms ≠ []
  | .prod _ => True
  | .pow base exponent => base = 10 ∧ ∃ k : Int64, exponent = .int k ∧ 1 ≤ k.toInt ∧ k.toInt ≤ 18
  | _ => False

theorem Plain.regular (e : Expr) (h : Plain e) : Regular e := by
  cases e with
  | num n => exact Number.Natural.whole h
  | sym _ | prod _ | pow _ _ => trivial
  | sum terms => exact h
  | call _ _ _ _ | deriv _ _ | integral _ _ _ _ => exact h.elim

theorem plain_not_minusOne {e : Expr} (he : e.Everywhere Plain) : e.isValue (-1) = false := by
  rw [Bool.eq_false_iff]
  intro hvalue
  have heq := eq_minusOne_of_isValue (he.mono Plain.regular) hvalue
  have hnatural : Number.Natural (.int (-1)) := (heq ▸ he.here : Plain minusOne)
  exact absurd hnatural (by decide)

theorem any_not_minusOne {es : List Expr} (h : ∀ e ∈ es, e.Everywhere Plain) :
    es.any (·.isValue (-1)) = false := by
  rw [List.any_eq_false]
  intro e he
  rw [plain_not_minusOne (h e he)]
  exact Bool.false_ne_true

theorem isNegative_eq_false {es : List Expr} (h : ∀ e ∈ es, e.Everywhere Plain) :
    Target.isNegative es = false := by
  induction es with
  | nil => rfl
  | cons e es ih =>
    have hhere := (h e (by simp)).here
    have hnumber : e.number?.any Number.isNegative = false := by
      cases e with
      | num n => exact Number.Natural.isNegative hhere
      | _ => rfl
    rw [Target.isNegative_cons, hnumber, ih fun e he => h e (by simp [he])]
    rfl

/-- The negation of a plain expression is plain only if it is the expression itself. -/
theorem neg_eq_of_plain {e : Expr} (he : e.Everywhere Plain) (hneg : e.neg.Everywhere Plain) :
    e.neg = e := by
  have hminus : ∀ factors : List Expr, minusOne ∈ factors → ¬ (prod factors).Everywhere Plain := by
    intro factors hmem hplain
    have := plain_not_minusOne (hplain.factors _ hmem)
    exact absurd this (by decide)
  cases e with
  | num n => exact congrArg Expr.num (Number.Natural.neg_eq he.here hneg.here)
  | prod factors =>
    rcases neg_prod_cases factors with ⟨hany, -⟩ | ⟨-, n, rest, rfl, heq⟩ | ⟨-, heq⟩
    · rw [any_not_minusOne he.factors] at hany
      cases hany
    · rw [heq] at hneg ⊢
      have hn : n.Natural := (he.factors (.num n) (by simp)).here
      rw [hn.neg_eq (hneg.factors (.num (-n)) (by simp)).here]
    · rw [heq] at hneg
      exact (hminus _ (by simp) hneg).elim
  | sum _ | sym _ | pow _ _ => exact (hminus _ (by simp) hneg).elim
  | call _ _ _ _ | deriv _ _ | integral _ _ _ _ => exact he.here.elim

/-- What may be replaced: anything but a number that can stand in a power of ten. -/
def Replaceable (e : Expr) : Prop :=
  ∀ n : Int64, e = .int n → 18 < n.toInt

theorem replaceable_of_not_number {e : Expr} (h : e.isNumber = false) : e.Replaceable := by
  rintro n rfl
  cases h

theorem neg_ne_num {e : Expr} (he : e.Everywhere Plain) (h : e.Replaceable) {n : Int64}
    (hn : -18 ≤ n.toInt) : e.neg ≠ .int n := by
  intro heq
  cases e with
  | num k =>
    cases k with
    | float x => exact he.here.elim
    | int k =>
      have hnat : Number.Natural (.int k) := he.here
      have hlarge := h k rfl
      rw [neg, Number.neg_int hnat.whole] at heq
      cases heq
      rw [Number.toInt_neg hnat.whole] at hn
      omega
  | prod factors =>
    rcases neg_prod_cases factors with ⟨hany, -⟩ | ⟨-, k, rest, rfl, hneg⟩ | ⟨-, hneg⟩
    · rw [any_not_minusOne he.factors] at hany
      cases hany
    · rw [hneg] at heq
      cases heq
    · rw [hneg] at heq
      cases heq
  | sum _ | sym _ | pow _ _ => cases heq
  | call _ _ _ _ | deriv _ _ | integral _ _ _ _ => exact he.here.elim

theorem beq_self {e : Expr} (he : e.Everywhere Plain) : (e == e) = true := by
  show agree Number.same e e = true
  induction he with
  | @intro e here _ ih =>
    have list (es : List Expr) (h : ∀ e ∈ es, agree Number.same e e = true) :
        agreeAll Number.same es es = true :=
      (agreeAll_iff_forall₂ ..).2 (List.forall₂_same.2 h)
    cases e with
    | num n =>
      cases n with
      | float x => exact here.elim
      | int n => exact beq_self_eq_true n
    | sym name => exact beq_self_eq_true name
    | sum terms => exact list terms ih
    | prod factors => exact list factors ih
    | pow base exponent =>
      rw [agree, ih base (by simp [children]), ih exponent (by simp [children])]
      rfl
    | call _ _ _ _ | deriv _ _ | integral _ _ _ _ => exact here.elim

theorem plain_unwrap_sum {terms : List Expr} (hne : terms ≠ [])
    (h : ∀ t ∈ terms, t.Everywhere Plain) : (unwrap .sum terms).Everywhere Plain := by
  unfold unwrap
  split
  · exact h _ (by simp)
  · exact .sum hne h

theorem plain_asFactors {e : Expr} (he : e.Everywhere Plain) :
    ∀ f ∈ Replacement.asFactors e, f.Everywhere Plain := by
  unfold Replacement.asFactors
  split
  · exact he.factors
  · intro f hf
    rw [List.mem_singleton.1 hf]
    exact he

theorem plain_asTerms {e : Expr} (he : e.Everywhere Plain) :
    Replacement.asTerms e ≠ [] ∧ ∀ t ∈ Replacement.asTerms e, t.Everywhere Plain := by
  unfold Replacement.asTerms
  split
  · exact ⟨he.here, he.terms⟩
  · refine ⟨by simp, fun t ht => ?_⟩
    rw [List.mem_singleton.1 ht]
    exact he

theorem plain_plainFactors {factors : List Expr} (h : ∀ f ∈ factors, f.Everywhere Plain) :
    ∀ f ∈ Target.plainFactors factors, f.Everywhere Plain := by
  refine Target.everywhere_plainFactors (fun n hn => ?_) h
  rw [Number.Natural.abs hn]
  exact hn

theorem plain_plainTerms {terms : List Expr} (h : ∀ t ∈ terms, t.Everywhere Plain) :
    ∀ t ∈ Target.plainTerms terms, t.Everywhere Plain := by
  refine Target.everywhere_plainTerms (fun a b ha hb hminus => ?_) h
  rw [plain_not_minusOne ha, plain_not_minusOne hb] at hminus
  cases hminus

/-! ### Replacements -/

section

variable {r : Replacement}

/-- What takes the place of a node in a plain expression is plain: a whole occurrence has the sign of the
target, and no sign is left over from a product. -/
theorem plain_acts {e e' : Expr} (he : e.Everywhere Plain)
    (htarget : r.target.literal.Everywhere Plain)
    (hneg : r.target.negated = r.target.literal.neg) (hvalue : r.value.Everywhere Plain)
    (h : r.Acts e e') : e'.Everywhere Plain := by
  cases h with
  | literal _ => exact hvalue
  | negated hnot heq =>
    rw [hneg] at heq
    have hregular := htarget.mono Plain.regular
    have heq' := eq_of_beq (he.mono Plain.regular) (regular_neg hregular) heq
    rw [heq', neg_eq_of_plain htarget (heq' ▸ he), beq_self htarget] at hnot
    cases hnot
  | @product factors rest negative hrest =>
    obtain ⟨wanted, hliteral, hleft, rfl⟩ := Target.exists_of_productRest? hrest
    rw [hliteral] at htarget
    have hperm := Target.perm_of_leftover?
      (Target.regular_plainFactors fun f h => (he.factors f h).mono Plain.regular)
      (Target.regular_plainFactors fun f h => (htarget.factors f h).mono Plain.regular) hleft
    rw [isNegative_eq_false he.factors, isNegative_eq_false htarget.factors]
    refine everywhere_unwrap (fun _ => trivial) fun f hmem => ?_
    have hmem' : f ∈ Replacement.asFactors r.value ++ rest := by simpa using hmem
    rcases List.mem_append.1 hmem' with hmem | hmem
    · exact plain_asFactors hvalue f hmem
    · exact plain_plainFactors he.factors f (hperm.mem_iff.2 (by simp [hmem]))
  | @sum terms rest hrest =>
    obtain ⟨wanted, hliteral, hleft⟩ := Target.exists_of_sumRest? hrest
    rw [hliteral] at htarget
    obtain ⟨hne, hvalues⟩ := plain_asTerms hvalue
    have hperm := Target.perm_of_leftover?
      (Target.regular_plainTerms fun t h => (he.terms t h).mono Plain.regular)
      (Target.regular_plainTerms fun t h => (htarget.terms t h).mono Plain.regular) hleft
    refine plain_unwrap_sum (by simp [hne]) fun t hmem => ?_
    rcases List.mem_append.1 hmem with hmem | hmem
    · exact hvalues t hmem
    · exact plain_plainTerms he.terms t (hperm.mem_iff.2 (by simp [hmem]))
  | pair _ => exact hvalue

/-- The numbers in a power of ten stay. -/
theorem apply_small (htarget : r.target.literal.Everywhere Plain)
    (hlarge : r.target.literal.Replaceable)
    (hneg : r.target.negated = r.target.literal.neg) {n : Int64} (hlow : 0 ≤ n.toInt)
    (hhigh : n.toInt ≤ 18) : r.apply (.int n) = .int n := by
  have hn : (int n).Everywhere Regular := .num (Number.Natural.whole (n := .int n) hlow)
  have hregular := htarget.mono Plain.regular
  have hliteral : (int n == r.target.literal) = false := by
    rw [Bool.eq_false_iff]
    intro heq
    have := hlarge n (eq_of_beq hn hregular heq).symm
    omega
  have hnegated : (int n == r.target.negated) = false := by
    rw [Bool.eq_false_iff, hneg]
    intro heq
    have heq' := eq_of_beq hn (regular_neg hregular) heq
    exact neg_ne_num htarget hlarge (by omega) heq'.symm
  exact Replacement.apply_num
    (Bool.or_eq_false_iff.2 ⟨Bool.or_eq_false_iff.2 ⟨hliteral, hnegated⟩, rfl⟩)

theorem plain_apply (htarget : r.target.literal.Everywhere Plain)
    (hlarge : r.target.literal.Replaceable)
    (hneg : r.target.negated = r.target.literal.neg) (hvalue : r.value.Everywhere Plain)
    {e : Expr} (he : e.Everywhere Plain) : (r.apply e).Everywhere Plain := by
  refine Replacement.everywhere_apply (fun e e' he => plain_acts he htarget hneg hvalue)
    (fun e he hat => ?_) he
  cases e with
  | num n =>
    rw [Replacement.apply_num hat]
    exact he.here
  | sym name =>
    rw [Replacement.apply_sym hat]
    trivial
  | prod factors =>
    rw [Replacement.apply_prod hat]
    trivial
  | sum terms =>
    have hne : terms ≠ [] := he.here
    rw [Replacement.apply_sum hat]
    show terms.map r.apply ≠ []
    simpa using hne
  | pow base exponent =>
    obtain ⟨rfl, k, rfl, hlow, hhigh⟩ := he.here
    have hbase : r.apply 10 = 10 := apply_small htarget hlarge hneg (by decide) (by decide)
    have hexponent := apply_small htarget hlarge hneg (Int.le_trans (by decide) hlow) hhigh
    rw [Replacement.apply_pow hat, hbase, hexponent]
    exact ⟨rfl, k, rfl, hlow, hhigh⟩
  | call _ _ _ _ | deriv _ _ | integral _ _ _ _ => exact he.here.elim

end

theorem plain_replace {tree target result : Expr} (htree : tree.Everywhere Plain)
    (htarget : target.Everywhere Plain) (hlarge : target.Replaceable)
    (hresult : result.Everywhere Plain) : (tree.replace target result).Everywhere Plain := by
  obtain ⟨hliteral, hnegated⟩ := Target.within_eq tree target
  refine plain_apply (r := ⟨Target.within tree target, result, result.neg⟩) ?_ ?_ ?_ hresult htree
  · rw [hliteral]
    exact htarget
  · rw [hliteral]
    exact hlarge
  · rw [hliteral, hnegated]

theorem replace_small {target result : Expr} (htarget : target.Everywhere Plain)
    (hlarge : target.Replaceable) {n : Int64} (hlow : 0 ≤ n.toInt) (hhigh : n.toInt ≤ 18) :
    (int n).replace target result = .int n := by
  obtain ⟨hliteral, hnegated⟩ := Target.within_eq (.int n) target
  refine apply_small (r := ⟨Target.within (.int n) target, result, result.neg⟩) ?_ ?_ ?_ hlow hhigh
  · rw [hliteral]
    exact htarget
  · rw [hliteral]
    exact hlarge
  · rw [hliteral, hnegated]

end Expr

/-! ### Values and magnitudes -/

namespace Meaning

/-- Integers, with the given values of symbols. The exponent of a power is a natural number. -/
def integers (symbols : String → ℤ) : Meaning ℤ where
  num := Number.toInt
  sym := symbols
  pow base exponent := base ^ exponent.toNat
  call _ _ _ _ := 0
  deriv _ _ := 0
  integral _ _ _ _ := 0

/-- Magnitudes. Everything counts as one at least, so that no part is larger than the whole. -/
def magnitudes : Meaning ℕ where
  num n := max 1 n.toInt.natAbs
  sym _ := 1
  pow base exponent := max 1 base ^ exponent
  call _ _ _ _ := 1
  deriv _ _ := 1
  integral _ _ _ _ := 1

/-- Magnitudes in which every symbol counts as `w`. -/
def bulks (w : ℕ) : Meaning ℕ :=
  { magnitudes with sym := fun _ => w }

theorem signed_integers (symbols : String → ℤ) : (integers symbols).Signed where
  one := rfl
  sign_mul_sign := rfl
  neg n hn := by
    cases n with
    | float x => exact hn.elim
    | int n =>
      rw [Number.neg_int hn]
      show (-n).toInt = -1 * n.toInt
      rw [Number.toInt_neg hn, neg_one_mul]

theorem signed_bulks (w : ℕ) : (bulks w).Signed where
  one := rfl
  sign_mul_sign := rfl
  neg n hn := by
    cases n with
    | float x => exact hn.elim
    | int n =>
      rw [Number.neg_int hn]
      show max 1 (-n).toInt.natAbs = 1 * max 1 n.toInt.natAbs
      rw [Number.toInt_neg hn, Int.natAbs_neg, one_mul]

theorem compatible_bulks (w : ℕ) : (bulks w).Compatible (· ≤ ·) where
  refl := le_refl
  add := Nat.add_le_add
  mul := Nat.mul_le_mul
  pow {a b c d} hab hcd := by
    have hbase : max 1 a ≤ max 1 b := max_le_max (le_refl 1) hab
    calc max 1 a ^ c ≤ max 1 b ^ c := Nat.pow_le_pow_left hbase c
      _ ≤ max 1 b ^ d := Nat.pow_le_pow_right (le_max_left 1 b) hcd
  call _ _ _ _ _ _ _ _ _ _ := le_refl 1

end Meaning

namespace Expr

/-- How large the numbers can get that an expression is worked out to. -/
def magnitude (e : Expr) : ℕ :=
  e.value Meaning.magnitudes

/-- The magnitude of an expression if every symbol counts as `w`. -/
def bulk (w : ℕ) (e : Expr) : ℕ :=
  e.value (Meaning.bulks w)

theorem bulk_one (e : Expr) : e.bulk 1 = e.magnitude := rfl

variable {R : Type*} [CommSemiring R] {m : Meaning R}

theorem comparable_plain (m : Meaning R) : Target.Comparable m Plain where
  regular := Plain.regular
  pair a b ha hb hminus := by
    rw [plain_not_minusOne ha, plain_not_minusOne hb] at hminus
    cases hminus

theorem neg_not_minusOne {e : Expr} (he : e.Everywhere Plain) (h : e.Replaceable) :
    e.neg.isValue (-1) = false := by
  rw [Bool.eq_false_iff]
  intro hvalue
  have heq := eq_minusOne_of_isValue (regular_neg (he.mono Plain.regular)) hvalue
  exact neg_ne_num he h (by decide) heq

theorem value_replace (hm : m.Signed) {tree target result : Expr} (htree : tree.Everywhere Plain)
    (htarget : target.Everywhere Plain) (hlarge : target.Replaceable)
    (hresult : result.Everywhere Plain) (h : result.value m = target.value m) :
    (tree.replace target result).value m = tree.value m :=
  rel_replace hm (.eq m) (comparable_plain m) htree htarget (hresult.mono Plain.regular)
    (neg_not_minusOne htarget hlarge) h

theorem bulk_replace {w : ℕ} {tree target result : Expr} (htree : tree.Everywhere Plain)
    (htarget : target.Everywhere Plain) (hlarge : target.Replaceable)
    (hresult : result.Everywhere Plain) (h : result.bulk w ≤ target.bulk w) :
    (tree.replace target result).bulk w ≤ tree.bulk w :=
  rel_replace (Meaning.signed_bulks w) (Meaning.compatible_bulks w) (comparable_plain _) htree
    htarget (hresult.mono Plain.regular) (neg_not_minusOne htarget hlarge) h

end Expr

end Workings

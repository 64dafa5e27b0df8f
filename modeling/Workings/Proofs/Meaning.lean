import Mathlib.Algebra.BigOperators.Group.List.Basic
import Mathlib.Algebra.Ring.Defs
import Workings.Expr.Occurrence
import Workings.Proofs.Words

/-!
# The value of an expression

`Expr.value m e` is the value of `e` in a commutative semiring, where a `Meaning` says what the leaves
and the operations other than sums and products stand for. `Expr.Everywhere p e` says that `p` holds at
every node of `e`. On expressions whose numbers are integers, `==` is equality (`Expr.eq_of_beq`).
-/

namespace Workings

/-- What the leaves of expressions, and the operations other than sums and products, stand for. -/
structure Meaning (R : Type*) where
  num : Number → R
  sym : String → R
  pow : R → R → R
  call : Signature → List R → List R → List R → R
  deriv : R → List (String × Nat) → R
  integral : R → String → Option R → Option R → R

namespace Expr

section

variable {R : Type*} [CommSemiring R]

mutual

/-- The value of an expression. -/
def value (m : Meaning R) : Expr → R
  | .num n => m.num n
  | .sym name => m.sym name
  | .sum terms => (values m terms).sum
  | .prod factors => (values m factors).prod
  | .pow base exponent => m.pow (value m base) (value m exponent)
  | .call f functional subscript superscript =>
    m.call f (values m functional) (values m subscript) (values m superscript)
  | .deriv body vars => m.deriv (value m body) vars
  | .integral body var lower upper =>
    m.integral (value m body) var (valueOption m lower) (valueOption m upper)

/-- The values of several expressions. -/
def values (m : Meaning R) : List Expr → List R
  | [] => []
  | e :: es => value m e :: values m es

/-- The value of an expression that may be missing. -/
def valueOption (m : Meaning R) : Option Expr → Option R
  | none => none
  | some e => some (value m e)

end

variable (m : Meaning R)

theorem values_eq_map (es : List Expr) : values m es = es.map (value m) := by
  induction es with
  | nil => rfl
  | cons e es ih => exact congrArg (value m e :: ·) ih

@[simp]
theorem value_num (n : Number) : value m (.num n) = m.num n := rfl

@[simp]
theorem value_sum (terms : List Expr) : value m (.sum terms) = (terms.map (value m)).sum :=
  congrArg List.sum (values_eq_map m terms)

@[simp]
theorem value_prod (factors : List Expr) :
    value m (.prod factors) = (factors.map (value m)).prod :=
  congrArg List.prod (values_eq_map m factors)

@[simp]
theorem value_pow (base exponent : Expr) :
    value m (.pow base exponent) = m.pow (value m base) (value m exponent) := rfl

@[simp]
theorem value_call (f : Signature) (functional subscript superscript : List Expr) :
    value m (.call f functional subscript superscript) =
      m.call f (functional.map (value m)) (subscript.map (value m)) (superscript.map (value m)) := by
  simp only [← values_eq_map]
  rfl

theorem value_unwrap_sum (terms : List Expr) :
    value m (unwrap .sum terms) = (terms.map (value m)).sum := by
  unfold unwrap
  split
  · simp
  · rw [value_sum]

theorem value_unwrap_prod (factors : List Expr) :
    value m (unwrap .prod factors) = (factors.map (value m)).prod := by
  unfold unwrap
  split
  · simp
  · rw [value_prod]

end

/-! ### Properties of every node -/

/-- A property of every node of an expression. -/
inductive Everywhere (p : Expr → Prop) : Expr → Prop
  | intro {e : Expr} (here : p e) (parts : ∀ part ∈ e.children, Everywhere p part) : Everywhere p e

namespace Everywhere

variable {p q : Expr → Prop} {e : Expr}

theorem here (h : Everywhere p e) : p e := by
  cases h with
  | intro here _ => exact here

theorem parts (h : Everywhere p e) : ∀ part ∈ e.children, Everywhere p part := by
  cases h with
  | intro _ parts => exact parts

theorem terms {terms : List Expr} (h : Everywhere p (.sum terms)) :
    ∀ t ∈ terms, Everywhere p t :=
  h.parts

theorem factors {factors : List Expr} (h : Everywhere p (.prod factors)) :
    ∀ f ∈ factors, Everywhere p f :=
  h.parts

theorem mono (h : Everywhere p e) (hpq : ∀ e, p e → q e) : Everywhere q e := by
  induction h with
  | intro here _ ih => exact .intro (hpq _ here) ih

theorem and (hp : Everywhere p e) (hq : Everywhere q e) : Everywhere (fun e => p e ∧ q e) e := by
  induction hp with
  | intro here _ ih => exact .intro ⟨here, hq.here⟩ fun part hpart => ih part hpart (hq.parts part hpart)

theorem num {n : Number} (h : p (.num n)) : Everywhere p (.num n) :=
  .intro h fun _ hpart => nomatch hpart

theorem sum {terms : List Expr} (here : p (.sum terms)) (parts : ∀ t ∈ terms, Everywhere p t) :
    Everywhere p (.sum terms) :=
  .intro here parts

theorem prod {factors : List Expr} (here : p (.prod factors))
    (parts : ∀ f ∈ factors, Everywhere p f) : Everywhere p (.prod factors) :=
  .intro here parts

end Everywhere

end Expr

/-! ### Expressions over the integers -/

namespace Expr

/-- A node over the integers: no float, no empty sum, and no derivative or integral. -/
def Regular : Expr → Prop
  | .num n => n.Whole
  | .sum terms => terms ≠ []
  | .deriv _ _ => False
  | .integral _ _ _ _ => False
  | _ => True

theorem agreeAll_iff_forall₂ (rel : Number → Number → Bool) (as bs : List Expr) :
    agreeAll rel as bs = true ↔ List.Forall₂ (fun a b => agree rel a b = true) as bs := by
  induction as generalizing bs with
  | nil =>
    cases bs with
    | nil => simp [agreeAll]
    | cons b bs => simp [agreeAll]
  | cons a as ih =>
    cases bs with
    | nil => simp [agreeAll]
    | cons b bs => simp [agreeAll, ih]

theorem eq_of_forall₂ {as bs : List Expr} {r : Expr → Expr → Prop} (h : List.Forall₂ r as bs)
    (hr : ∀ a ∈ as, ∀ b ∈ bs, r a b → a = b) : as = bs := by
  induction h with
  | nil => rfl
  | cons hab _ ih =>
    have htail := ih fun a ha b hb => hr a (by simp [ha]) b (by simp [hb])
    rw [hr _ (by simp) _ (by simp) hab, htail]

/-- Equality up to the way numbers are stored is equality when all numbers are integers. -/
theorem eq_of_beq {a b : Expr} (ha : a.Everywhere Regular) (hb : b.Everywhere Regular)
    (h : (a == b) = true) : a = b := by
  change agree Number.same a b = true at h
  induction ha generalizing b with
  | @intro a here _ ih =>
    have list {as bs : List Expr} (has : ∀ e ∈ as, e ∈ a.children) (hbs : ∀ e ∈ bs, e ∈ b.children)
        (hab : agreeAll Number.same as bs = true) : as = bs := by
      refine eq_of_forall₂ ((agreeAll_iff_forall₂ ..).1 hab) fun x hx y hy hxy => ?_
      exact ih x (has x hx) (hb.parts y (hbs y hy)) hxy
    cases a <;> cases b <;> simp only [agree, Bool.and_eq_true, Bool.false_eq_true] at h
    case num.num => exact congrArg Expr.num (Number.Whole.eq_of_same here hb.here h)
    case sym.sym => exact congrArg Expr.sym (beq_iff_eq.1 h)
    case sum.sum => exact congrArg Expr.sum (list (fun _ he => he) (fun _ he => he) h)
    case prod.prod => exact congrArg Expr.prod (list (fun _ he => he) (fun _ he => he) h)
    case pow.pow =>
      rw [ih _ (by simp [children]) (hb.parts _ (by simp [children])) h.1,
        ih _ (by simp [children]) (hb.parts _ (by simp [children])) h.2]
    case call.call =>
      obtain ⟨⟨⟨hf, h₁⟩, h₂⟩, h₃⟩ := h
      rw [beq_iff_eq.1 hf, list (by simp +contextual [children]) (by simp +contextual [children]) h₁,
        list (by simp +contextual [children]) (by simp +contextual [children]) h₂,
        list (by simp +contextual [children]) (by simp +contextual [children]) h₃]
    case deriv.deriv => exact here.elim
    case integral.integral => exact here.elim

end Expr

/-! ### Signs -/

variable {R : Type*} [CommSemiring R]

namespace Meaning

/-- What `-1` stands for. -/
def sign (m : Meaning R) : R :=
  m.num (.int (-1))

/-- The sign of a number stands apart from its magnitude. -/
structure Signed (m : Meaning R) : Prop where
  one : m.num 1 = 1
  sign_mul_sign : m.sign * m.sign = 1
  neg : ∀ n : Number, n.Whole → m.num (-n) = m.sign * m.num n

variable {m : Meaning R}

theorem Signed.sign_mul_cancel (hm : m.Signed) (a : R) : m.sign * (m.sign * a) = a := by
  rw [← mul_assoc, hm.sign_mul_sign, one_mul]

/-- What the sign of a product stands for. -/
def signOf (m : Meaning R) (negative : Bool) : R :=
  if negative then m.sign else 1

theorem Signed.signOf_mul_signOf (hm : m.Signed) (a b : Bool) :
    m.signOf a * m.signOf b = m.signOf (a ^^ b) := by
  cases a <;> cases b <;> simp [signOf, hm.sign_mul_sign]

theorem Signed.signOf_mul_self (hm : m.Signed) (a : Bool) : m.signOf a * m.signOf a = 1 := by
  cases a <;> simp [signOf, hm.sign_mul_sign]

theorem Signed.num_abs (hm : m.Signed) {n : Number} (hn : n.Whole) :
    m.num n = m.signOf n.isNegative * m.num n.abs := by
  unfold Number.abs signOf
  split
  · rw [hm.neg n hn, hm.sign_mul_cancel]
  · rw [one_mul]

end Meaning

namespace Expr

variable {m : Meaning R}

theorem eq_num_of_isValue {e : Expr} {n : Number} (he : e.Everywhere Regular) (hn : n.Whole)
    (h : e.isValue n = true) : e = .num n := by
  cases e with
  | num k => exact congrArg Expr.num (Number.Whole.eq_of_same he.here hn h)
  | _ => cases h

theorem regular_minusOne : minusOne.Everywhere Regular :=
  .num (show Number.Whole (.int (-1)) by decide)

theorem eq_minusOne_of_isValue {e : Expr} (he : e.Everywhere Regular)
    (h : e.isValue (-1) = true) : e = minusOne :=
  eq_num_of_isValue he (by decide) h

theorem eq_one_of_isValue {e : Expr} (he : e.Everywhere Regular) (h : e.isValue 1 = true) :
    e = 1 :=
  eq_num_of_isValue he (by decide) h

@[simp]
theorem value_minusOne (m : Meaning R) : minusOne.value m = m.sign := by
  rw [minusOne, int, value_num, Meaning.sign]

end Expr

end Workings

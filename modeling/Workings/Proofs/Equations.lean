import Workings.Proofs.Replacing

/-!
# Replacing as an equation

A replacement is sound as an equation in every commutative ring: if a target and what takes its place
have the same value, then so have the tree before and the tree after (`Expr.value_replace_ring`). Symbols
may stand for any elements of the ring, and powers and calls for any functions of the values of their
parts. Literal occurrences, those with the opposite sign and parts of longer sums and products are all
covered, at any depth.
-/

namespace Workings

open Workings.Expr (Regular)

variable {R : Type*} [CommRing R]

namespace Meaning

/-- Integers in a ring, with the given elements for symbols and the given functions for powers and
calls. -/
def inRing (symbols : String → R) (pow : R → R → R)
    (call : Signature → List R → List R → List R → R) : Meaning R where
  num n := n.toInt
  sym := symbols
  pow := pow
  call := call
  deriv _ _ := 0
  integral _ _ _ _ := 0

variable (symbols : String → R) (pow : R → R → R) (call : Signature → List R → List R → List R → R)

theorem inRing_num (n : Number) : (inRing symbols pow call).num n = (n.toInt : R) := rfl

theorem inRing_one : (inRing symbols pow call).num 1 = 1 := by
  rw [inRing_num, show (1 : Number).toInt = 1 by decide, Int.cast_one]

theorem inRing_zero : (inRing symbols pow call).num 0 = 0 := by
  rw [inRing_num, show (0 : Number).toInt = 0 by decide, Int.cast_zero]

/-- In a ring the number `-1` changes the sign. -/
theorem signed_inRing : (inRing symbols pow call).Signed := by
  have hsign : (inRing symbols pow call).sign = -1 := by
    rw [sign, inRing_num, show (Number.int (-1)).toInt = -1 by decide, Int.cast_neg, Int.cast_one]
  refine ⟨inRing_one symbols pow call, ?_, fun n hn => ?_⟩
  · rw [hsign, neg_mul_neg, one_mul]
  · rw [hsign, inRing_num, inRing_num, hn.toInt_neg, Int.cast_neg, neg_one_mul]

/-- In a ring normalizing a product with `-1` keeps its value. -/
theorem comparable_inRing : Target.Comparable (inRing symbols pow call) Regular where
  regular _ h := h
  pair _ _ ha hb _ :=
    Expr.value_buildProd_pair (inRing_one symbols pow call) (inRing_zero symbols pow call)
      (Expr.everywhere_faithful (ha.mono fun _ => Expr.Regular.unrounded))
      (Expr.everywhere_faithful (hb.mono fun _ => Expr.Regular.unrounded))

end Meaning

namespace Expr

/-- If a target and its replacement have the same value in a ring, then replacing the target keeps the
value of the tree. The expressions are over the integers, without an empty sum, and the negated target
is not the number `-1`. -/
theorem value_replace_ring (symbols : String → R) (pow : R → R → R)
    (call : Signature → List R → List R → List R → R) {tree target result : Expr}
    (htree : tree.Everywhere Regular) (htarget : target.Everywhere Regular)
    (hresult : result.Everywhere Regular) (hapart : target.neg.isValue (-1) = false)
    (h : target.value (.inRing symbols pow call) = result.value (.inRing symbols pow call)) :
    (tree.replace target result).value (.inRing symbols pow call) =
      tree.value (.inRing symbols pow call) :=
  rel_replace (Meaning.signed_inRing symbols pow call) (.eq _)
    (Meaning.comparable_inRing symbols pow call) htree htarget hresult hapart h.symm

/-- With `x = 3`, `y = 5` and any other symbol `1`, a power of which is a power and a call of which is the
sum of its arguments. -/
def sampleMeaning : Meaning ℤ :=
  .inRing (fun name => if name = "x" then 3 else if name = "y" then 5 else 1)
    (fun base exponent => base ^ exponent.toNat) fun _ functional _ _ => functional.sum

/-- In `f(2 * x * y) ^ 2 + (-2) * x * a` the product `2 * x` is part of two longer ones, once with the
opposite sign. With `x = 3` it can be replaced by `6` in both. -/
theorem value_replace_ring_parts :
    (Expr.prod [2, .sym "x"]).value sampleMeaning = (6 : Expr).value sampleMeaning ∧
    ((Expr.sum [.pow (call1 "f" (.prod [2, .sym "x", .sym "y"])) 2,
      .prod [.int (-2), .sym "x", .sym "a"]]).replace (.prod [2, .sym "x"]) 6).value sampleMeaning =
      (Expr.sum [.pow (call1 "f" (.prod [2, .sym "x", .sym "y"])) 2,
        .prod [.int (-2), .sym "x", .sym "a"]]).value sampleMeaning := by
  have hnum (n : Number) (hn : n.Whole) : (Expr.num n).Everywhere Regular := .num hn
  have hsym (name : String) : (Expr.sym name).Everywhere Regular := .intro trivial (by simp [children])
  have htwo : (2 : Expr).Everywhere Regular := hnum _ (by decide)
  have hminus : (Expr.int (-2)).Everywhere Regular := hnum _ (by decide)
  have hinner : (Expr.prod [2, .sym "x", .sym "y"]).Everywhere Regular :=
    .prod trivial (by simp [htwo, hsym])
  have hcall : (call1 "f" (.prod [2, .sym "x", .sym "y"])).Everywhere Regular :=
    .intro trivial (by simpa [call1, children] using hinner)
  have hpow : (Expr.pow (call1 "f" (.prod [2, .sym "x", .sym "y"])) 2).Everywhere Regular :=
    .intro trivial (by simpa [children] using ⟨hcall, htwo⟩)
  have hproduct : (Expr.prod [.int (-2), .sym "x", .sym "a"]).Everywhere Regular :=
    .prod trivial (by simp [hminus, hsym])
  have htarget : (Expr.prod [2, .sym "x"]).Everywhere Regular := .prod trivial (by simp [htwo, hsym])
  have hequal : (Expr.prod [2, .sym "x"]).value sampleMeaning = (6 : Expr).value sampleMeaning := by
    decide +kernel
  exact ⟨hequal, value_replace_ring _ _ _
    (.sum (List.cons_ne_nil _ _) (by simpa using ⟨hpow, hproduct⟩)) htarget (hnum _ (by decide))
    (by decide +kernel) hequal⟩

end Expr

end Workings

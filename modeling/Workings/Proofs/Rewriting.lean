import Workings.Proofs.Blocks

/-!
# Changing a part of a tree

`before.Rewrites part result after` says that the part occurs in one tree, and that the other tree is what
becomes of it. A part that occurs as a whole is replaced there, with its sign changed where it occurs
with the opposite sign (`Expr.rewrites_whole`). Only where it does not occur as a whole is it taken out of
a longer product (`Expr.rewrites_factors`), and then signs are compared rather than factors.
-/

namespace Workings

namespace Target

/-! ### Taking factors out of a product -/

/-- Items that are looked for in order are found, and the rest is what comes after them. -/
theorem difference?_append (wanted rest : List Expr) :
    difference? wanted (wanted ++ rest) = some rest := by
  induction wanted with
  | nil =>
    induction rest with
    | nil => rfl
    | cons item rest ih =>
      rw [List.nil_append] at ih ⊢
      rw [difference?, if_neg (by simp), ih]
      rfl
  | cons item wanted ih =>
    have herase : (item :: wanted).eraseP (· == item) = wanted :=
      List.eraseP_cons_of_pos (Expr.beq_refl item)
    rw [List.cons_append, difference?, if_pos (by simp), herase]
    exact ih

theorem leftover?_append {wanted : List Expr} (h : wanted ≠ []) (rest : List Expr) :
    leftover? (wanted ++ rest) wanted = some rest := by
  rw [leftover?, if_neg (by simpa using h), difference?_append]

theorem plainFactors_append (as bs : List Expr) :
    plainFactors (as ++ bs) = plainFactors as ++ plainFactors bs := by
  fun_induction plainFactors as with
  | case1 => rfl
  | case2 inner rest ih => rw [List.cons_append, plainFactors, ih, List.append_assoc]
  | case3 rest ih => rw [List.cons_append, plainFactors, ih]
  | case4 term rest ih => rw [List.cons_append, plainFactors, ih, List.cons_append]
  | case5 n rest hone ih => rw [List.cons_append, plainFactors, if_pos hone, ih]
  | case6 n rest hone ih => rw [List.cons_append, plainFactors, if_neg hone, ih, List.cons_append]
  | case7 factor rest hprod hnil hsingle hnum ih =>
    rw [List.cons_append, plainFactors, ih, List.cons_append] <;> assumption

theorem isNegative_append (as bs : List Expr) :
    isNegative (as ++ bs) = (isNegative as ^^ isNegative bs) := by
  induction as with
  | nil => simp [isNegative]
  | cons a as ih => rw [List.cons_append, isNegative_cons, isNegative_cons, ih, Bool.xor_assoc]

/-- What is left of a product that begins with the factors looked for, their signs apart. -/
theorem productRest?_eq {factors wanted rest : List Expr}
    (h : plainFactors factors = plainFactors wanted ++ rest) (hne : plainFactors wanted ≠ []) :
    productRest? factors (.prod wanted) =
      if (isNegative factors != isNegative wanted) && !isNegative factors && !rest.any Expr.isNumber
        then none else some (rest, isNegative factors != isNegative wanted) := by
  rw [productRest?, h, leftover?_append hne]
  rfl

end Target

namespace Expr

variable {tree part result : Expr}

/-- Replacing a part that occurs in `before` gives `after`. -/
structure Rewrites (before part result after : Expr) : Prop where
  occurs : before.has part = true
  replaced : before.replace part result = after

/-! ### Comparing nodes -/

@[simp]
theorem sum_beq_prod (terms factors : List Expr) : (sum terms == prod factors) = false := rfl

@[simp]
theorem sum_beq_num (terms : List Expr) (n : Number) : (sum terms == num n) = false := rfl

@[simp]
theorem pow_beq_sum (base exponent : Expr) (terms : List Expr) :
    (pow base exponent == sum terms) = false := rfl

@[simp]
theorem prod_beq_cons (a b : Expr) (as bs : List Expr) :
    (prod (a :: as) == prod (b :: bs)) = (a == b && prod as == prod bs) := rfl

/-- Products of different length are different. -/
theorem prod_beq_of_length {as bs : List Expr} (h : as.length ≠ bs.length) :
    (prod as == prod bs) = false := by
  induction as generalizing bs with
  | nil =>
    cases bs with
    | nil => exact absurd rfl h
    | cons b bs => rfl
  | cons a as ih =>
    cases bs with
    | nil => rfl
    | cons b bs => rw [prod_beq_cons, ih (by simpa using h), Bool.and_false]

/-! ### Whole occurrences -/

/-- Whether an expression is the part itself or its negation. -/
def isWhole (e part : Expr) : Bool :=
  e == part || e == part.neg

theorem hasWhole_eq_false_iff {e : Expr} :
    e.hasWhole part = false ↔ Target.count ⟨part, part.neg, false⟩ e = 0 := by
  rw [hasWhole, decide_eq_false_iff_not, Nat.pos_iff_ne_zero, not_not]

theorem hasWhole_of_isWhole {e : Expr} (h : e.isWhole part = true) : e.hasWhole part = true := by
  have hcount : Target.count ⟨part, part.neg, false⟩ e = 1 := Target.count_of_isWhole h
  exact decide_eq_true (by rw [hcount]; exact Nat.one_pos)

theorem hasWhole_self (part : Expr) : part.hasWhole part = true :=
  hasWhole_of_isWhole (by rw [isWhole, beq_refl, Bool.true_or])

theorem hasWhole_neg (part : Expr) : part.neg.hasWhole part = true :=
  hasWhole_of_isWhole (by rw [isWhole, beq_refl, Bool.or_true])

theorem countAny_eq_any (target : Target) (es : List Expr) :
    target.countAny es = es.any fun e => decide (0 < target.count e) := by
  induction es with
  | nil => rfl
  | cons e es ih => rw [Target.countAny, ih, List.any_cons]

@[simp]
theorem hasWhole_num (n : Number) (part : Expr) :
    (num n).hasWhole part = (num n).isWhole part := by
  rw [hasWhole, Target.count]
  show _ = Target.isWhole ⟨part, part.neg, false⟩ (num n)
  cases Target.isWhole ⟨part, part.neg, false⟩ (num n) <;> rfl

@[simp]
theorem hasWhole_prod (factors : List Expr) (part : Expr) :
    (prod factors).hasWhole part =
      ((prod factors).isWhole part || factors.any (·.hasWhole part)) := by
  rw [hasWhole, Target.count, countAny_eq_any, Bool.false_and, Bool.or_false]
  show _ = (Target.isWhole ⟨part, part.neg, false⟩ (prod factors) ||
    factors.any fun e => decide (0 < Target.count ⟨part, part.neg, false⟩ e))
  cases Target.isWhole ⟨part, part.neg, false⟩ (prod factors) ||
    factors.any fun e => decide (0 < Target.count ⟨part, part.neg, false⟩ e) <;> rfl

@[simp]
theorem hasWhole_sum (terms : List Expr) (part : Expr) :
    (sum terms).hasWhole part = ((sum terms).isWhole part || terms.any (·.hasWhole part)) := by
  rw [hasWhole, Target.count, countAny_eq_any, Bool.false_and, Bool.or_false]
  show _ = (Target.isWhole ⟨part, part.neg, false⟩ (sum terms) ||
    terms.any fun e => decide (0 < Target.count ⟨part, part.neg, false⟩ e))
  cases Target.isWhole ⟨part, part.neg, false⟩ (sum terms) ||
    terms.any fun e => decide (0 < Target.count ⟨part, part.neg, false⟩ e) <;> rfl

@[simp]
theorem hasWhole_pow (base exponent part : Expr) :
    (pow base exponent).hasWhole part =
      ((pow base exponent).isWhole part || (base.hasWhole part || exponent.hasWhole part)) := by
  rw [hasWhole, Target.count]
  show decide (0 < if Target.isWhole ⟨part, part.neg, false⟩ (pow base exponent) then _ else _) =
    (Target.isWhole ⟨part, part.neg, false⟩ (pow base exponent) || (_ || _))
  cases Target.isWhole ⟨part, part.neg, false⟩ (pow base exponent)
  · rw [if_neg Bool.false_ne_true, Bool.false_or, hasWhole, hasWhole, ← Bool.decide_or]
    exact decide_eq_decide.2 Nat.add_pos_iff_pos_or_pos
  · rfl

/-- What becomes of an expression in a tree where the part occurs as a whole. -/
def putWhole (e part result : Expr) : Expr :=
  Replacement.apply ⟨⟨part, part.neg, false⟩, result, result.neg⟩ e

theorem putWhole_of_not_hasWhole {e : Expr} (h : e.hasWhole part = false) :
    e.putWhole part result = e :=
  Replacement.apply_of_count_eq_zero (hasWhole_eq_false_iff.1 h)

theorem putWhole_self (part result : Expr) : part.putWhole part result = result :=
  Replacement.apply_of_whole? (by rw [Replacement.whole?, if_pos (beq_refl part)])

theorem putWhole_neg (h : (part.neg == part) = false) : part.neg.putWhole part result = result.neg := by
  refine Replacement.apply_of_whole? ?_
  rw [Replacement.whole?, h, if_neg Bool.false_ne_true, if_pos (beq_refl part.neg)]

theorem putWhole_prod {factors : List Expr} (h : (prod factors).isWhole part = false)
    (hpair : factors.length ≠ 2 ∨ factors.any (·.isValue (-1)) = false ∨
      factors.any (· == part.neg) = false) :
    (prod factors).putWhole part result = .prod (factors.map (·.putWhole part result)) := by
  refine Replacement.apply_prod (Bool.or_eq_false_iff.2 ⟨h, Bool.or_eq_false_iff.2 ⟨rfl, ?_⟩⟩)
  rw [Replacement.isNegatedPair, Bool.and_eq_false_iff, Bool.and_eq_false_iff, or_assoc]
  simpa using hpair

theorem putWhole_sum {terms : List Expr} (h : (sum terms).isWhole part = false) :
    (sum terms).putWhole part result = .sum (terms.map (·.putWhole part result)) :=
  Replacement.apply_sum (Bool.or_eq_false_iff.2 ⟨h, rfl⟩)

theorem putWhole_pow {base exponent : Expr} (h : (pow base exponent).isWhole part = false) :
    (pow base exponent).putWhole part result =
      .pow (base.putWhole part result) (exponent.putWhole part result) :=
  Replacement.apply_pow (Bool.or_eq_false_iff.2 ⟨h, rfl⟩)

/-- A part that occurs as a whole is replaced where it does. -/
theorem rewrites_whole (result : Expr) (h : tree.hasWhole part = true) :
    tree.Rewrites part result (tree.putWhole part result) := by
  have hwithin := within_of_hasWhole h
  refine ⟨?_, ?_⟩
  · rw [has, occurrences, hwithin]
    exact h
  · rw [replace, hwithin]
    rfl

/-- The whole tree is replaced. -/
theorem rewrites_self (part result : Expr) : part.Rewrites part result result := by
  have h := rewrites_whole result (hasWhole_self part)
  rwa [putWhole_self] at h

/-! ### Parts of products -/

/-- What becomes of an expression in a tree where the part does not occur as a whole. -/
def putPart (e part result : Expr) : Expr :=
  Replacement.apply ⟨⟨part, part.neg, true⟩, result, result.neg⟩ e

/-- A part that does not occur as a whole is replaced where it is part of a longer sum or product. -/
theorem rewrites_part (result : Expr) (h : tree.hasWhole part = false)
    (hcount : 0 < Target.count ⟨part, part.neg, true⟩ tree) :
    tree.Rewrites part result (tree.putPart part result) := by
  have hwithin := within_of_not_hasWhole h
  refine ⟨?_, ?_⟩
  · rw [has, occurrences, hwithin]
    exact decide_eq_true hcount
  · rw [replace, hwithin]
    rfl

variable {factors rest : List Expr} {negative : Bool}

theorem count_of_productRest? (h : Target.productRest? factors part = some (rest, negative)) :
    0 < Target.count ⟨part, part.neg, true⟩ (prod factors) := by
  rw [Nat.pos_iff_ne_zero, ne_eq, Target.count_prod_eq_zero_iff]
  rintro ⟨-, hpart, -⟩
  rw [h] at hpart
  cases hpart

theorem putPart_prod (hwhole : (prod factors).isWhole part = false)
    (h : Target.productRest? factors part = some (rest, negative)) :
    (prod factors).putPart part result = unwrap .prod
      (Replacement.asFactors result ++ rest ++ if negative then [minusOne] else []) := by
  refine Replacement.apply_of_partOfProduct? (r := ⟨⟨part, part.neg, true⟩, result, result.neg⟩) hwhole ?_
  rw [Replacement.partOfProduct?, if_pos rfl, h]
  rfl

/-- Factors are taken out of a product, and the result takes their place. -/
theorem rewrites_factors (result : Expr) (hwhole : (prod factors).hasWhole part = false)
    (h : Target.productRest? factors part = some (rest, negative)) :
    (prod factors).Rewrites part result (unwrap .prod
      (Replacement.asFactors result ++ rest ++ if negative then [minusOne] else [])) := by
  have hrewrites := rewrites_part result hwhole (count_of_productRest? h)
  rw [hasWhole_prod, Bool.or_eq_false_iff] at hwhole
  rwa [putPart_prod hwhole.1 h] at hrewrites

/-- Factors are taken out of a product that stands beside a number. -/
theorem rewrites_factors_beside {wanted : List Expr} (result : Expr) (n : Number)
    (hwhole : (sum [.num n, prod factors]).hasWhole (prod wanted) = false)
    (h : Target.productRest? factors (prod wanted) = some (rest, negative)) :
    (sum [.num n, prod factors]).Rewrites (prod wanted) result (.sum [.num n, unwrap .prod
      (Replacement.asFactors result ++ rest ++ if negative then [minusOne] else [])]) := by
  have hcount := count_of_productRest? h
  have hsum : 0 < Target.count ⟨prod wanted, (prod wanted).neg, true⟩ (sum [.num n, prod factors]) := by
    rw [Nat.pos_iff_ne_zero]
    intro hzero
    exact hcount.ne' (Target.count_of_mem_children hzero (by simp [children]))
  have hrewrites := rewrites_part result hwhole hsum
  simp only [hasWhole_sum, hasWhole_prod, hasWhole_num, List.any_cons, List.any_nil,
    Bool.or_eq_false_iff] at hwhole
  have hacts : Replacement.actsAt ⟨⟨prod wanted, (prod wanted).neg, true⟩, result, result.neg⟩
      (sum [.num n, prod factors]) = false :=
    Bool.or_eq_false_iff.2 ⟨hwhole.1, rfl⟩
  have hnumber : (num n).putPart (prod wanted) result = num n := by
    refine Replacement.apply_of_count_eq_zero ?_
    show (if (num n).isWhole (prod wanted) then 1 else 0) = 0
    rw [hwhole.2.1]
    rfl
  have hplace : (sum [.num n, prod factors]).putPart (prod wanted) result =
      .sum ([num n, prod factors].map (·.putPart (prod wanted) result)) :=
    Replacement.apply_sum hacts
  rw [List.map_cons, List.map_cons, List.map_nil, hnumber, putPart_prod hwhole.2.2.1.1 h] at hplace
  rwa [hplace] at hrewrites

end Expr

end Workings

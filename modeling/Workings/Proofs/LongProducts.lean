import Workings.Proofs.Multiplying
import Workings.Proofs.Rewriting

/-!
# The trees of a long multiplication

A product of integers that is worked out at length is changed three times: it is split into components,
multiplied out, and added up (`Expr.Multiplies`). Where the product is the whole tree each of these
changes finds it as a whole. Elsewhere it is found with its sign changed, or as part of a longer
product, and what then becomes of the tree depends on the signs around it. A coefficient `-1` is a case of its
own: `-1 * c` with its sign changed is `c`, which the tree may hold in other places.
-/

namespace Workings

namespace Expr

/-- The product of two words. -/
abbrev wordProduct (m n : Int64) : Expr :=
  productOfNumbers (.int m) (.int n)

/-- The product of two words split into components. -/
abbrev splitProduct (m n : Int64) : Expr :=
  factoredProduct (.int m) (.int n)

/-- The products of the components of two words as a sum. -/
def multipliedOut (m n : Int64) : Expr :=
  sumOfNumbers (partialProducts (Number.int m).components (Number.int n).components)

/-- `before` becomes `after` when the product of two words that occurs in it is split into components,
multiplied out, and added up to the word `c`. -/
inductive Multiplies (m n c : Int64) (before after : Expr) : Prop
  | intro {split multiplied : Expr} :
      before.Rewrites (wordProduct m n) (splitProduct m n) split →
      split.Rewrites (splitProduct m n) (multipliedOut m n) multiplied →
      multiplied.Rewrites (multipliedOut m n) (.int c) after →
      Multiplies m n c before after

/-- A product that is the whole tree. -/
theorem multiplies_self (m n c : Int64) : Multiplies m n c (wordProduct m n) (.int c) :=
  ⟨rewrites_self _ _, rewrites_self _ _, rewrites_self _ _⟩

/-- A power of ten. -/
abbrev tenTo (k : Int64) : Expr :=
  .pow 10 (int k)

/-- A part that is a sum or a product and stays one when its sign is changed, so that neither numbers nor
powers are taken for it. -/
structure Compound (part : Expr) : Prop where
  num : ∀ n, (num n).isWhole part = false
  pow : ∀ base exponent, (pow base exponent).isWhole part = false

namespace Compound

variable {part : Expr}

theorem hasWhole_sum (h : part.Compound) (numbers : List Number) :
    (sumOfNumbers numbers).hasWhole part = (sumOfNumbers numbers).isWhole part := by
  have hnumbers : (numbers.map Expr.num).any (·.hasWhole part) = false := by
    simp [h.num]
  rw [sumOfNumbers, Expr.hasWhole_sum, hnumbers, Bool.or_false]

theorem hasWhole_number (h : part.Compound) (n : Number) : (Expr.num n).hasWhole part = false := by
  rw [hasWhole_num, h.num]

theorem hasWhole_tenTo (h : part.Compound) (k : Int64) : (tenTo k).hasWhole part = false := by
  rw [tenTo, hasWhole_pow, h.pow, int, h.hasWhole_number, Bool.false_or, Bool.or_false]
  exact h.hasWhole_number _

/-- Beside a power of ten. -/
theorem hasWhole_shifted (h : part.Compound) (a b : Expr) (k : Int64) :
    (prod [a, b, tenTo k]).hasWhole part =
      ((prod [a, b, tenTo k]).isWhole part || (a.hasWhole part || b.hasWhole part)) := by
  rw [hasWhole_prod, List.any_cons, List.any_cons, List.any_cons, List.any_nil, h.hasWhole_tenTo,
    Bool.or_false, Bool.or_false]

end Compound

variable {m n c : Int64}

theorem int_isValue_minusOne (n : Int64) : (num (.int n)).isValue (-1) = (n == -1) := rfl

theorem neg_wordProduct (hm : m ≠ -1) (hn : n ≠ -1) (hmin : m ≠ Int64.minValue) :
    (wordProduct m n).neg = wordProduct (-m) n := by
  have hany : [num (.int m), num (.int n)].any (·.isValue (-1)) = false := by
    simp [int_isValue_minusOne, hm, hn]
  show (if [num (.int m), num (.int n)].any (·.isValue (-1)) = true then _ else _) = _
  rw [hany, if_neg Bool.false_ne_true, wordProduct, productOfNumbers, ← Number.neg_int hmin]

theorem compound_wordProduct (hm : m ≠ -1) (hn : n ≠ -1) (hmin : m ≠ Int64.minValue) :
    (wordProduct m n).Compound := by
  refine ⟨fun a => ?_, fun base exponent => ?_⟩ <;>
    rw [isWhole, neg_wordProduct hm hn hmin] <;> rfl

theorem neg_splitProduct (m n : Int64) : (splitProduct m n).neg =
    .prod [minusOne, sumOfNumbers (Number.int m).components,
      sumOfNumbers (Number.int n).components] :=
  rfl

theorem compound_splitProduct (m n : Int64) : (splitProduct m n).Compound :=
  ⟨fun _ => rfl, fun _ _ => rfl⟩

theorem neg_multipliedOut (m n : Int64) :
    (multipliedOut m n).neg = .prod [minusOne, multipliedOut m n] :=
  rfl

theorem compound_multipliedOut (m n : Int64) : (multipliedOut m n).Compound :=
  ⟨fun _ => rfl, fun _ _ => rfl⟩

/-! ### A negated product beside a number -/

/-- A sum that has something other than numbers in second place is not a sum of numbers. -/
theorem sum_beq_sumOfNumbers {first second : Expr} (h : second.isNumber = false)
    (numbers : List Number) : (sum [first, second] == sumOfNumbers numbers) = false := by
  have hsecond (n : Number) : agree Number.same second (num n) = false := by
    cases second <;> first | rfl | cases h
  show agreeAll Number.same [first, second] (numbers.map num) = false
  match numbers with
  | [] => rfl
  | [a] => simp [agreeAll]
  | a :: b :: rest => simp [agreeAll, hsecond]

/-- Beside a number a part is found with its sign changed. -/
theorem rewrites_neg_beside {part : Expr} (hpart : part.Compound) (result : Expr) (n : Number)
    (hsum : (sum [num n, part.neg]).isWhole part = false) (hneg : (part.neg == part) = false) :
    (sum [num n, part.neg]).Rewrites part result (.sum [num n, result.neg]) := by
  have hhas : (sum [num n, part.neg]).hasWhole part = true := by
    simp [hasWhole_neg]
  have hrewrites := rewrites_whole result hhas
  have hnumber : (num n).putWhole part result = num n :=
    putWhole_of_not_hasWhole (by rw [hasWhole_num, hpart.num])
  rwa [putWhole_sum hsum, List.map_cons, List.map_cons, List.map_nil, hnumber,
    putWhole_neg hneg] at hrewrites

theorem neg_ne_self (hzero : m ≠ 0) (hmin : m ≠ Int64.minValue) : -m ≠ m := by
  intro h
  have hvalue := Number.toInt_neg hmin
  rw [h] at hvalue
  have : m.toInt ≠ 0 := fun hm => hzero (Int64.toInt_inj.1 hm)
  omega

/-- A product of two words that stands beside a number with its sign changed. -/
theorem rewrites_wordProduct_beside (result : Expr) (r : Number) (hm : m ≠ -1) (hn : n ≠ -1)
    (hzero : m ≠ 0) (hmin : m ≠ Int64.minValue) :
    (sum [.num r, (wordProduct m n).neg]).Rewrites (wordProduct m n) result
      (.sum [.num r, result.neg]) := by
  refine rewrites_neg_beside (compound_wordProduct hm hn hmin) result r ?_ ?_
  · rw [isWhole, neg_wordProduct hm hn hmin]
    rfl
  · rw [neg_wordProduct hm hn hmin]
    show ((-m == m) && _) = false
    rw [beq_eq_false_iff_ne.2 (neg_ne_self hzero hmin), Bool.false_and]

/-- A product that stands beside a number with its sign changed. -/
theorem multiplies_beside (r : Number) (hm : m ≠ -1) (hn : n ≠ -1) (hzero : m ≠ 0)
    (hmin : m ≠ Int64.minValue) :
    Multiplies m n c (.sum [.num r, (wordProduct m n).neg]) (.sum [.num r, (int c).neg]) := by
  refine ⟨rewrites_wordProduct_beside _ r hm hn hzero hmin,
    rewrites_neg_beside (compound_splitProduct m n) (multipliedOut m n) r rfl rfl,
    rewrites_neg_beside (compound_multipliedOut m n) _ r ?_ rfl⟩
  rw [isWhole, neg_multipliedOut, Bool.or_eq_false_iff]
  exact ⟨sum_beq_sumOfNumbers rfl _, rfl⟩

/-! ### Part of a longer product -/

/-- A word that is neither one nor minus one, and not the least word. -/
structure NotUnit (m : Int64) : Prop where
  min : m ≠ Int64.minValue
  one : m ≠ 1
  minusOne : m ≠ -1

theorem NotUnit.plainFactors (h : NotUnit m) (rest : List Expr) :
    Target.plainFactors (int m :: rest) = .num (Number.int m).abs :: Target.plainFactors rest := by
  have hwhole : (Number.int m).Whole := h.min
  have habs : ((Number.int m).abs == (1 : Number)) = false := by
    rw [Bool.eq_false_iff]
    intro hsame
    have hone := congrArg Number.toInt (hwhole.abs.eq_of_same (by decide) hsame)
    rw [hwhole.toInt_abs, show Number.toInt 1 = 1 by decide] at hone
    change (m.toInt.natAbs : Int) = 1 at hone
    rcases (show m.toInt = 1 ∨ m.toInt = -1 by omega) with hm | hm
    · exact h.one (Int64.toInt_inj.1 (hm.trans (by decide)))
    · exact h.minusOne (Int64.toInt_inj.1 (hm.trans (by decide)))
  show (if (Number.int m).abs == (1 : Number) then _ else _) = _
  rw [habs, if_neg Bool.false_ne_true]

theorem plainFactors_sum_ne_nil {numbers : List Number} (hne : numbers ≠ []) (rest : List Expr) :
    Target.plainFactors (sumOfNumbers numbers :: rest) ≠ [] := by
  match numbers with
  | [a] => exact List.cons_ne_nil _ _
  | a :: b :: numbers => exact List.cons_ne_nil _ _

/-- Factors at the beginning of a product with a power of ten are taken out of it. -/
theorem productRest?_tenTo {wanted : List Expr} (hne : Target.plainFactors wanted ≠ []) (k : Int64) :
    Target.productRest? (wanted ++ [tenTo k]) (.prod wanted) = some ([tenTo k], false) := by
  rw [Target.productRest?_eq (Target.plainFactors_append wanted [tenTo k]) hne,
    Target.isNegative_append, show Target.isNegative [tenTo k] = false from rfl]
  simp [Target.plainFactors]

/-- A sum of numbers beside a power of ten is found as a whole. -/
theorem rewrites_multipliedOut_tenTo (m n k : Int64) (result : Expr) :
    (prod [multipliedOut m n, tenTo k]).Rewrites (multipliedOut m n) result
      (.prod [result, tenTo k]) := by
  have hcompound := compound_multipliedOut m n
  have hhas : (prod [multipliedOut m n, tenTo k]).hasWhole (multipliedOut m n) = true := by
    simp [hasWhole_self]
  have hself : (prod [multipliedOut m n, tenTo k]).isWhole (multipliedOut m n) = false := by
    rfl
  have hrewrites := rewrites_whole result hhas
  have hpower : (tenTo k).putWhole (multipliedOut m n) result = tenTo k :=
    putWhole_of_not_hasWhole (hcompound.hasWhole_tenTo k)
  rwa [putWhole_prod hself (.inr (.inl rfl)), List.map_cons, List.map_cons, List.map_nil, putWhole_self,
    hpower] at hrewrites

/-- A product of which neither factor is a unit is taken out of the product with a power of ten. -/
theorem multiplies_shifted (k : Int64) (hm : NotUnit m) (hn : NotUnit n) :
    Multiplies m n c (.prod [int m, int n, tenTo k]) (.prod [int c, tenTo k]) := by
  have hwhole : (Number.int m).Whole := hm.min
  have hword := compound_wordProduct hm.minusOne hn.minusOne hm.min
  have hsplit := compound_splitProduct m n
  have hwordRest : Target.productRest? [int m, int n, tenTo k] (wordProduct m n) =
      some ([tenTo k], false) := by
    have hne : Target.plainFactors [int m, int n] ≠ [] := by
      rw [hm.plainFactors]
      exact List.cons_ne_nil _ _
    exact productRest?_tenTo hne k
  have hsplitRest : Target.productRest? [sumOfNumbers (Number.int m).components,
      sumOfNumbers (Number.int n).components, tenTo k] (splitProduct m n) =
        some ([tenTo k], false) :=
    productRest?_tenTo (plainFactors_sum_ne_nil hwhole.sum_components.1 _) k
  have hwordWhole : (prod [int m, int n, tenTo k]).hasWhole (wordProduct m n) = false := by
    rw [hword.hasWhole_shifted, int, int, hword.hasWhole_number, hword.hasWhole_number, isWhole,
      neg_wordProduct hm.minusOne hn.minusOne hm.min]
    simp [wordProduct, productOfNumbers, prod_beq_of_length]
  have hsplitWhole : (prod [sumOfNumbers (Number.int m).components,
      sumOfNumbers (Number.int n).components, tenTo k]).hasWhole (splitProduct m n) = false := by
    rw [hsplit.hasWhole_shifted, hsplit.hasWhole_sum, hsplit.hasWhole_sum, isWhole, isWhole, isWhole,
      neg_splitProduct]
    simp [splitProduct, factoredProduct, sumOfNumbers, minusOne, int, prod_beq_of_length]
  exact ⟨rewrites_factors _ hwordWhole hwordRest, rewrites_factors _ hsplitWhole hsplitRest,
    rewrites_multipliedOut_tenTo m n k _⟩

/-! ### A coefficient minus one -/

/-- A word, or something in its place if it is `c`. -/
def slot (c : Int64) (e : Expr) (m : Int64) : Expr :=
  if m = c then e else int m

/-- The product of two words and a power of ten, with something in the place of `c`. -/
def slots (c : Int64) (e : Expr) (m n k : Int64) : Expr :=
  .prod [slot c e m, slot c e n, .pow (slot c e 10) (slot c e k)]

theorem slot_self (c m : Int64) : slot c (int c) m = int m := by
  unfold slot
  split
  · rename_i h
    rw [h]
  · rfl

theorem putWhole_slot {part : Expr} (result : Expr) (hneg : (part.neg == part) = false)
    (hnum : ∀ m, m ≠ c → (int m).isWhole part = false) (m : Int64) :
    (slot c part.neg m).putWhole part result = slot c result.neg m := by
  unfold slot
  split
  · exact putWhole_neg hneg
  · rename_i hm
    exact putWhole_of_not_hasWhole ((hasWhole_num _ _).trans (hnum m hm))

/-- Where the negation of a part stands in the place of one word, that of the result takes its place. -/
theorem rewrites_slots {part : Expr} (result : Expr) {k : Int64} (hc : m = c ∨ n = c)
    (hneg : (part.neg == part) = false) (hnum : ∀ m, m ≠ c → (int m).isWhole part = false)
    (hself : (slots c part.neg m n k).isWhole part = false)
    (hpow : ∀ base exponent, (pow base exponent).isWhole part = false) :
    (slots c part.neg m n k).Rewrites part result (slots c result.neg m n k) := by
  have hhas : (slots c part.neg m n k).hasWhole part = true := by
    rcases hc with rfl | rfl <;> simp [slots, slot, hasWhole_neg]
  have hrewrites := rewrites_whole result hhas
  have hslot := putWhole_slot result hneg hnum
  rw [slots, putWhole_prod hself (.inl (by simp)), List.map_cons, List.map_cons, List.map_cons,
    List.map_nil, putWhole_pow (hpow _ _), hslot, hslot, hslot, hslot] at hrewrites
  exact hrewrites

/-- One of two words is minus one, and `c` is the other. -/
def BesideMinusOne (m n c : Int64) : Prop :=
  m = -1 ∧ n = c ∨ n = -1 ∧ m = c

theorem BesideMinusOne.neg_wordProduct (h : BesideMinusOne m n c) :
    (wordProduct m n).neg = int c := by
  have hany : [num (.int m), num (.int n)].any (·.isValue (-1)) = true := by
    rcases h with ⟨rfl, -⟩ | ⟨rfl, -⟩ <;> simp [int_isValue_minusOne]
  have herase : unwrap .prod ([num (.int m), num (.int n)].eraseP (·.isValue (-1))) = int c := by
    rcases h with ⟨rfl, rfl⟩ | ⟨rfl, rfl⟩
    · rfl
    · by_cases hm : m = -1
      · subst hm
        rfl
      · have hvalue : (num (.int m)).isValue (-1) = false := by
          rw [int_isValue_minusOne, beq_eq_false_iff_ne]
          exact hm
        rw [List.eraseP_cons_of_neg (by rw [hvalue]; exact Bool.false_ne_true)]
        rfl
  show (if [num (.int m), num (.int n)].any (·.isValue (-1)) = true then _ else _) = _
  rw [hany, if_pos rfl, herase]

/-- Minus one times a word is found wherever the word stands. In the end minus the product stands there,
which is the word again. -/
theorem BesideMinusOne.multiplies {k d : Int64} (h : BesideMinusOne m n c) (hd : (int d).neg = int c) :
    Multiplies m n d (.prod [int m, int n, tenTo k]) (.prod [int m, int n, tenTo k]) := by
  have hstart : slots c (int c) m n k = .prod [int m, int n, tenTo k] := by
    rw [slots, slot_self, slot_self, slot_self, slot_self]
    rfl
  have hc : m = c ∨ n = c := h.symm.imp And.right And.right
  have hneg := h.neg_wordProduct
  have hword : (slots c (wordProduct m n).neg m n k).Rewrites (wordProduct m n) (splitProduct m n)
      (slots c (splitProduct m n).neg m n k) := by
    refine rewrites_slots _ hc ?_ (fun a ha => ?_) ?_ fun _ _ => ?_
    · rw [hneg]
      rfl
    · rw [isWhole, hneg]
      exact Bool.or_eq_false_iff.2 ⟨rfl, show (a == c) = false from beq_eq_false_iff_ne.2 ha⟩
    · rw [isWhole, hneg]
      exact Bool.or_eq_false_iff.2 ⟨prod_beq_of_length (by simp), rfl⟩
    · rw [isWhole, hneg]
      rfl
  have hsplit : (slots c (splitProduct m n).neg m n k).Rewrites (splitProduct m n) (multipliedOut m n)
      (slots c (multipliedOut m n).neg m n k) := by
    refine rewrites_slots _ hc rfl (fun _ _ => rfl) ?_ fun _ _ => rfl
    rw [isWhole, neg_splitProduct]
    simp [slots, splitProduct, factoredProduct, sumOfNumbers, prod_beq_of_length]
  have hmultiplied : (slots c (multipliedOut m n).neg m n k).Rewrites (multipliedOut m n) (int d)
      (slots c (int d).neg m n k) :=
    rewrites_slots _ hc rfl (fun _ _ => rfl)
      (Bool.or_eq_false_iff.2 ⟨rfl, prod_beq_of_length (by simp)⟩) fun _ _ => rfl
  rw [hneg, hstart] at hword
  rw [hd, hstart] at hmultiplied
  exact ⟨hword, hsplit, hmultiplied⟩

theorem plainFactors_of_abs {a b : Number} (h : a.abs = b.abs) (rest : List Expr) :
    Target.plainFactors (num a :: rest) = Target.plainFactors (num b :: rest) := by
  show (if a.abs == (1 : Number) then _ else _) = if b.abs == (1 : Number) then _ else _
  rw [h]

theorem isNegative_tenTo (k : Int64) : Target.isNegative [tenTo k] = false := rfl

theorem isNegative_int_cons (m : Int64) (rest : List Expr) :
    Target.isNegative (int m :: rest) = (decide (m.toInt < 0) ^^ Target.isNegative rest) := by
  rw [Target.isNegative_cons]
  show (decide (m < 0) ^^ _) = _
  rw [decide_eq_decide.2 (show m < 0 ↔ m.toInt < 0 from Int64.lt_iff_toInt_lt)]

/-- What is left of a product with minus one when minus its other word is taken out. -/
theorem BesideMinusOne.productRest? (h : BesideMinusOne m n c) (hmin : c ≠ Int64.minValue) (k : Int64) :
    Target.productRest? [int m, int n, tenTo k] (.prod [int (-c), tenTo k]) =
      some ([], decide (c = 0)) := by
  have hwhole : (Number.int c).Whole := hmin
  have habs : (Number.int (-c)).abs = (Number.int c).abs := by
    rw [← Number.neg_int hmin]
    refine hwhole.neg.abs.eq_of_toInt hwhole.abs ?_
    rw [hwhole.neg.toInt_abs, hwhole.toInt_abs, hwhole.toInt_neg, Int.natAbs_neg]
  have hplain : Target.plainFactors [int m, int n, tenTo k] =
      Target.plainFactors [int (-c), tenTo k] ++ [] := by
    rw [List.append_nil, int, int, int, plainFactors_of_abs habs]
    rcases h with ⟨rfl, rfl⟩ | ⟨rfl, rfl⟩ <;> rfl
  have hne : Target.plainFactors [int (-c), tenTo k] ≠ [] := by
    rw [show [int (-c), tenTo k] = [int (-c)] ++ [tenTo k] from rfl, Target.plainFactors_append]
    simp [Target.plainFactors]
  have hsign : Target.isNegative [int m, int n, tenTo k] = !decide (c.toInt < 0) := by
    rw [isNegative_int_cons, isNegative_int_cons, isNegative_tenTo]
    rcases h with ⟨rfl, rfl⟩ | ⟨rfl, rfl⟩ <;> simp
  have hsign' : Target.isNegative [int (-c), tenTo k] = decide (0 < c.toInt) := by
    rw [isNegative_int_cons, isNegative_tenTo, Number.toInt_neg hmin]
    simp
  have hzero : decide (c = 0) = decide (c.toInt = 0) := decide_eq_decide.2 Int64.toInt_inj.symm
  rw [Target.productRest?_eq hplain hne, hsign, hsign', hzero]
  rcases lt_trichotomy c.toInt 0 with hc | hc | hc
  · simp [hc, hc.ne, hc.le]
  · simp [hc]
  · simp [hc, hc.ne', hc.le]

/-- A product of a word and a power of ten. -/
theorem neg_scaled (hc : c ≠ -1) (k : Int64) :
    (prod [int c, tenTo k]).neg = .prod [.num (-Number.int c), tenTo k] := by
  have hany : [int c, tenTo k].any (·.isValue (-1)) = false := by
    rw [List.any_cons, int, int_isValue_minusOne, beq_eq_false_iff_ne.2 hc]
    rfl
  show (if [int c, tenTo k].any (·.isValue (-1)) = true then _ else _) = _
  rw [hany, if_neg Bool.false_ne_true]

theorem compound_scaled (hc : c ≠ -1) (k : Int64) : (prod [int c, tenTo k]).Compound := by
  refine ⟨fun a => ?_, fun base exponent => ?_⟩ <;> rw [isWhole, neg_scaled hc] <;> rfl

/-- A product with minus one is scaled back as minus its other word, except that a zero does not carry the
sign of minus one, which stays behind. -/
theorem BesideMinusOne.rewrites_scaled (h : BesideMinusOne m n c) (hone : c ≠ 1)
    (hmin : c ≠ Int64.minValue) (k : Int64) (v : Number) :
    (prod [int m, int n, tenTo k]).Rewrites (prod [int (-c), tenTo k]) (.num v)
      (if c = 0 then .prod [.num v, minusOne] else .num v) := by
  have hc : -c ≠ -1 := fun h => hone (Int64.neg_inj.1 h)
  have hcompound := compound_scaled hc k
  have hwhole : (prod [int m, int n, tenTo k]).hasWhole (prod [int (-c), tenTo k]) = false := by
    rw [hcompound.hasWhole_shifted, int, int, hcompound.hasWhole_number, hcompound.hasWhole_number,
      isWhole, neg_scaled hc]
    simp [prod_beq_of_length]
  have hrewrites := rewrites_factors (num v) hwhole (h.productRest? hmin k)
  by_cases hzero : c = 0
  · rw [decide_eq_true hzero] at hrewrites
    rw [if_pos hzero]
    exact hrewrites
  · rw [decide_eq_false hzero] at hrewrites
    rw [if_neg hzero]
    exact hrewrites

end Expr

end Workings

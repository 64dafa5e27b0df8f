import Workings.Proofs.LongProducts

/-!
# Products without their zeros, with the sign changed

A product of which the trailing zeros were taken out stands beside a power of ten. Where its sign is
changed as well, none of the changes of a long multiplication finds it as a whole. If the signs of its
factors differ, it is not found at all (`Expr.not_has_shifted`). Otherwise it is found up to its sign,
which then stays behind as a factor of its own (`Expr.multiplies_stray`), so that in the end minus the
product is not found (`Expr.not_has_stray`).
-/

namespace Workings

namespace Expr

variable {m n c : Int64} {part : Expr}

theorem has_eq_false {tree : Expr} (hwhole : tree.hasWhole part = false)
    (hpart : Target.count ⟨part, part.neg, true⟩ tree = 0) : tree.has part = false := by
  rw [has, occurrences, within_of_not_hasWhole hwhole, decide_eq_false_iff_not]
  omega

theorem count_num_eq_zero {n : Number} (h : (num n).isWhole part = false) :
    Target.count ⟨part, part.neg, true⟩ (num n) = 0 := by
  show (if (num n).isWhole part then 1 else 0) = 0
  rw [h]
  rfl

/-- Beside a number there is no part of a product if it does not occur in the product. -/
theorem has_beside_eq_false {factors : List Expr} (r : Number)
    (hwhole : (sum [.num r, prod factors]).hasWhole part = false)
    (hsum : Target.sumRest? [.num r, prod factors] part = none)
    (hprod : Target.productRest? factors part = none)
    (hfactors : ∀ f ∈ factors, Target.count ⟨part, part.neg, true⟩ f = 0) :
    (sum [.num r, prod factors]).has part = false := by
  refine has_eq_false hwhole ?_
  simp only [hasWhole_sum, hasWhole_prod, hasWhole_num, List.any_cons, List.any_nil,
    Bool.or_eq_false_iff] at hwhole
  obtain ⟨htree, hnumber, ⟨hproduct, -⟩, -⟩ := hwhole
  have hnum : Target.count ⟨part, part.neg, true⟩ (num r) = 0 := count_num_eq_zero hnumber
  have hfactor : Target.count ⟨part, part.neg, true⟩ (prod factors) = 0 :=
    Target.count_prod_eq_zero_iff.2 ⟨hproduct, by rw [hprod]; rfl, hfactors⟩
  exact Target.count_sum_eq_zero_iff.2 ⟨htree, by rw [hsum]; rfl, by simp [hnum, hfactor]⟩

theorem Compound.hasWhole_int (h : part.Compound) (a : Int64) : (int a).hasWhole part = false :=
  h.hasWhole_number _

theorem Compound.count_int (h : part.Compound) (a : Int64) :
    Target.count ⟨part, part.neg, true⟩ (int a) = 0 :=
  count_num_eq_zero (h.num _)

theorem Compound.count_tenTo (h : part.Compound) (k : Int64) :
    Target.count ⟨part, part.neg, true⟩ (tenTo k) = 0 := by
  show (if (tenTo k).isWhole part then 1 else _ + _) = 0
  rw [h.pow, if_neg Bool.false_ne_true]
  exact Nat.add_eq_zero_iff.2 ⟨count_num_eq_zero (h.num _), count_num_eq_zero (h.num _)⟩

/-- A product without its zeros, with the sign changed. -/
theorem neg_shifted (hm : m ≠ -1) (hn : n ≠ -1) (hmin : m ≠ Int64.minValue) (k : Int64) :
    (prod [int m, int n, tenTo k]).neg = .prod [int (-m), int n, tenTo k] := by
  have hany : [int m, int n, tenTo k].any (·.isValue (-1)) = false := by
    rw [List.any_cons, List.any_cons, int, int, int_isValue_minusOne, int_isValue_minusOne,
      beq_eq_false_iff_ne.2 hm, beq_eq_false_iff_ne.2 hn]
    rfl
  show (if [int m, int n, tenTo k].any (·.isValue (-1)) = true then _ else _) = _
  rw [hany, if_neg Bool.false_ne_true]
  show Expr.prod [.num (-Number.int m), _, _] = _
  rw [Number.neg_int hmin]
  rfl

theorem plainFactors_neg_cons (hmin : m ≠ Int64.minValue) (rest : List Expr) :
    Target.plainFactors (int (-m) :: rest) = Target.plainFactors (int m :: rest) := by
  have hwhole : (Number.int m).Whole := hmin
  refine plainFactors_of_abs ?_ rest
  rw [← Number.neg_int hmin]
  refine hwhole.neg.abs.eq_of_toInt hwhole.abs ?_
  rw [hwhole.neg.toInt_abs, hwhole.toInt_abs, hwhole.toInt_neg, Int.natAbs_neg]

/-- What is left of a product without its zeros when the product with the other sign is taken out: a
sign that is left needs a number to carry it. -/
theorem productRest?_negated (hm : NotUnit m) (hzero : m ≠ 0) (k : Int64) :
    Target.productRest? [int (-m), int n, tenTo k] (wordProduct m n) =
      if (m.toInt < 0 ↔ n.toInt < 0) then some ([tenTo k], true) else none := by
  have hplain : Target.plainFactors [int (-m), int n, tenTo k] =
      Target.plainFactors [int m, int n] ++ [tenTo k] := by
    rw [plainFactors_neg_cons hm.min]
    exact Target.plainFactors_append [int m, int n] [tenTo k]
  have hne : Target.plainFactors [int m, int n] ≠ [] := by
    rw [hm.plainFactors]
    exact List.cons_ne_nil _ _
  have hvalue : m.toInt ≠ 0 := fun h => hzero (Int64.toInt_inj.1 h)
  have hsign : Target.isNegative [int m, int n] = (decide (m.toInt < 0) ^^ decide (n.toInt < 0)) := by
    rw [isNegative_int_cons, isNegative_int_cons]
    simp [Target.isNegative]
  have hsign' : Target.isNegative [int (-m), int n, tenTo k] =
      !Target.isNegative [int m, int n] := by
    rw [hsign, isNegative_int_cons, isNegative_int_cons, isNegative_tenTo, Number.toInt_neg hm.min]
    have hneg : decide (-m.toInt < 0) = !decide (m.toInt < 0) := by
      rw [← decide_not, decide_eq_decide]
      omega
    rw [hneg, Bool.xor_false, Bool.not_xor]
  show Target.productRest? [int (-m), int n, tenTo k] (.prod [int m, int n]) = _
  rw [Target.productRest?_eq hplain hne, hsign', hsign]
  have hpower : (tenTo k).isNumber = false := rfl
  by_cases h : m.toInt < 0 <;> by_cases h' : n.toInt < 0 <;> simp [h, h', hpower]

theorem hasWhole_negated (hm : NotUnit m) (hn : NotUnit n) (k : Int64) (r : Number) :
    (sum [.num r, prod [int (-m), int n, tenTo k]]).hasWhole (wordProduct m n) = false := by
  have hcompound := compound_wordProduct hm.minusOne hn.minusOne hm.min
  rw [hasWhole_sum, List.any_cons, List.any_cons, hcompound.hasWhole_number, hcompound.hasWhole_shifted,
    hcompound.hasWhole_int, hcompound.hasWhole_int, isWhole, isWhole,
    neg_wordProduct hm.minusOne hn.minusOne hm.min]
  simp [wordProduct, productOfNumbers, prod_beq_of_length]

/-- Factors of different signs are not found with the sign of their product changed. -/
theorem not_has_shifted (hm : NotUnit m) (hn : NotUnit n) (hzero : m ≠ 0)
    (hsigns : ¬ (m.toInt < 0 ↔ n.toInt < 0)) (k : Int64) (r : Number) :
    (sum [.num r, (prod [int m, int n, tenTo k]).neg]).has (wordProduct m n) = false := by
  have hcompound := compound_wordProduct hm.minusOne hn.minusOne hm.min
  rw [neg_shifted hm.minusOne hn.minusOne hm.min]
  refine has_beside_eq_false r (hasWhole_negated hm hn k r) rfl ?_ ?_
  · rw [productRest?_negated hm hzero, if_neg hsigns]
  · simp [hcompound.count_tenTo, hcompound.count_int]

/-! ### A sign that stays behind -/

/-- A product that stands beside a number and a power of ten, with the opposite sign as a factor of its
own. -/
abbrev strayProduct (r : Number) (factors : List Expr) (k : Int64) : Expr :=
  .sum [.num r, .prod (factors ++ [tenTo k, minusOne])]

theorem Compound.hasWhole_stray (h : part.Compound) (r : Number) (factors : List Expr) (k : Int64) :
    (strayProduct r factors k).hasWhole part = ((strayProduct r factors k).isWhole part ||
      ((prod (factors ++ [tenTo k, minusOne])).isWhole part || factors.any (·.hasWhole part))) := by
  have hminus : minusOne.hasWhole part = false := h.hasWhole_number _
  rw [Expr.hasWhole_sum, List.any_cons, List.any_cons, List.any_nil, h.hasWhole_number,
    Expr.hasWhole_prod, List.any_append, List.any_cons, List.any_cons, List.any_nil, h.hasWhole_tenTo, hminus]
  simp only [Bool.or_false, Bool.false_or]

/-- Factors with the same sign are found with the sign of their product changed, and the sign stays
behind. -/
theorem rewrites_wordProduct_stray (hm : NotUnit m) (hn : NotUnit n) (hzero : m ≠ 0)
    (hsigns : m.toInt < 0 ↔ n.toInt < 0) (k : Int64) (r : Number) :
    (sum [.num r, (prod [int m, int n, tenTo k]).neg]).Rewrites (wordProduct m n) (splitProduct m n)
      (strayProduct r [sumOfNumbers (Number.int m).components,
        sumOfNumbers (Number.int n).components] k) := by
  rw [neg_shifted hm.minusOne hn.minusOne hm.min]
  have hrest := productRest?_negated (n := n) hm hzero k
  rw [if_pos hsigns] at hrest
  exact rewrites_factors_beside _ r (hasWhole_negated hm hn k r) hrest

/-- Factors beside a power of ten and minus one are taken out of the product, and minus one stays. -/
theorem productRest?_stray {wanted : List Expr} (hne : Target.plainFactors wanted ≠ [])
    (hsign : Target.isNegative wanted = false) (k : Int64) :
    Target.productRest? (wanted ++ [tenTo k, minusOne]) (.prod wanted) = some ([tenTo k], true) := by
  rw [Target.productRest?_eq (Target.plainFactors_append wanted [tenTo k, minusOne]) hne,
    Target.isNegative_append, hsign]
  rfl

theorem rewrites_splitProduct_stray (hm : NotUnit m) (k : Int64) (r : Number) :
    (strayProduct r [sumOfNumbers (Number.int m).components, sumOfNumbers (Number.int n).components]
      k).Rewrites (splitProduct m n) (multipliedOut m n) (strayProduct r [multipliedOut m n] k) := by
  have hwhole : (Number.int m).Whole := hm.min
  have hcompound := compound_splitProduct m n
  have hrest : Target.productRest? [sumOfNumbers (Number.int m).components,
      sumOfNumbers (Number.int n).components, tenTo k, minusOne] (splitProduct m n) =
        some ([tenTo k], true) :=
    productRest?_stray (plainFactors_sum_ne_nil hwhole.sum_components.1 _) rfl k
  refine rewrites_factors_beside _ r ?_ hrest
  change (strayProduct r [sumOfNumbers (Number.int m).components,
    sumOfNumbers (Number.int n).components] k).hasWhole (splitProduct m n) = false
  rw [hcompound.hasWhole_stray, List.any_cons, List.any_cons, List.any_nil, hcompound.hasWhole_sum,
    hcompound.hasWhole_sum, isWhole, isWhole, isWhole, isWhole, neg_splitProduct]
  simp [splitProduct, factoredProduct, sumOfNumbers, prod_beq_of_length]

theorem rewrites_multipliedOut_stray (k : Int64) (r : Number) :
    (strayProduct r [multipliedOut m n] k).Rewrites (multipliedOut m n) (int c)
      (strayProduct r [int c] k) := by
  have hcompound := compound_multipliedOut m n
  have hhas : (strayProduct r [multipliedOut m n] k).hasWhole (multipliedOut m n) = true := by
    simp [hasWhole_self]
  have htree : (strayProduct r [multipliedOut m n] k).isWhole (multipliedOut m n) = false :=
    Bool.or_eq_false_iff.2 ⟨sum_beq_sumOfNumbers rfl _, rfl⟩
  have hproduct : (prod [multipliedOut m n, tenTo k, minusOne]).isWhole (multipliedOut m n) = false := by
    rw [isWhole, neg_multipliedOut]
    exact Bool.or_eq_false_iff.2 ⟨rfl, prod_beq_of_length (by simp)⟩
  have hrewrites := rewrites_whole (int c) hhas
  have hnumber (a : Number) : (num a).putWhole (multipliedOut m n) (int c) = num a :=
    putWhole_of_not_hasWhole (hcompound.hasWhole_number a)
  have hminus : minusOne.putWhole (multipliedOut m n) (int c) = minusOne := hnumber _
  have hpower : (tenTo k).putWhole (multipliedOut m n) (int c) = tenTo k :=
    putWhole_of_not_hasWhole (hcompound.hasWhole_tenTo k)
  rw [putWhole_sum htree, List.map_cons, List.map_cons, List.map_nil, hnumber, List.cons_append,
    List.nil_append, putWhole_prod hproduct (.inl (by simp)), List.map_cons, List.map_cons, List.map_cons,
    List.map_nil, putWhole_self, hpower, hminus] at hrewrites
  exact hrewrites

/-- Multiplying with the sign changed. -/
theorem multiplies_stray (hm : NotUnit m) (hn : NotUnit n) (hzero : m ≠ 0)
    (hsigns : m.toInt < 0 ↔ n.toInt < 0) (k : Int64) (r : Number) :
    Multiplies m n c (.sum [.num r, (prod [int m, int n, tenTo k]).neg]) (strayProduct r [int c] k) :=
  ⟨rewrites_wordProduct_stray hm hn hzero hsigns k r, rewrites_splitProduct_stray hm k r,
    rewrites_multipliedOut_stray k r⟩

/-- The product is scaled back, but its sign is a factor of its own. -/
theorem rewrites_scaled_stray (hc : NotUnit c) (hpos : 0 < c.toInt) (k : Int64) (r v : Number) :
    (strayProduct r [int c] k).Rewrites (.prod [int c, tenTo k]) (.num v)
      (.sum [.num r, .prod [.num v, minusOne]]) := by
  have hrest : Target.productRest? [int c, tenTo k, minusOne] (.prod [int c, tenTo k]) =
      some ([], true) := by
    have hplain : Target.plainFactors [int c, tenTo k, minusOne] =
        Target.plainFactors [int c, tenTo k] ++ [] :=
      Target.plainFactors_append [int c, tenTo k] [minusOne]
    have hne : Target.plainFactors [int c, tenTo k] ≠ [] := by
      rw [hc.plainFactors]
      exact List.cons_ne_nil _ _
    have hsign (rest : List Expr) : Target.isNegative (int c :: rest) = Target.isNegative rest := by
      rw [isNegative_int_cons, decide_eq_false hpos.not_gt, Bool.false_xor]
    rw [Target.productRest?_eq hplain hne, hsign, hsign]
    rfl
  have hcompound := compound_scaled hc.minusOne k
  refine rewrites_factors_beside _ r ?_ hrest
  refine (hcompound.hasWhole_stray r [int c] k).trans ?_
  rw [List.any_cons, List.any_nil, hcompound.hasWhole_int, isWhole, isWhole,
    neg_scaled hc.minusOne]
  simp [prod_beq_of_length]

/-- A number other than zero and one stays beside minus one when terms are compared. -/
theorem plainTerms_stray (r : Number) (hone : c ≠ 1) (hzero : c ≠ 0) :
    Target.plainTerms [.num r, .prod [int c, minusOne]] = [.num r, .prod [int c, minusOne]] := by
  have hone' : (int c).isValue 1 = false := show (c == 1) = false from beq_eq_false_iff_ne.2 hone
  have hzero' : (int c).isValue 0 = false := show (c == 0) = false from beq_eq_false_iff_ne.2 hzero
  have hflat : flatFactors [int c, minusOne] = [int c, minusOne] := by
    show (if (int c).isValue 1 then _ else int c :: flatFactors [minusOne]) = _
    rw [hone', if_neg Bool.false_ne_true]
    rfl
  have hproduct : buildProd [int c, minusOne] = .prod [int c, minusOne] := by
    show (if (flatFactors [int c, minusOne]).any (·.isValue 0) then 0 else _) = _
    rw [hflat, List.any_cons, hzero']
    rfl
  show [Expr.num r, if _ || minusOne.isValue (-1) then buildProd [int c, minusOne] else _] = _
  rw [show minusOne.isValue (-1) = true from rfl, Bool.or_true, if_pos rfl, hproduct]

/-- A number beside minus one is not the opposite of the number. -/
theorem not_has_stray (r : Number) (hone : c ≠ 1) (hzero : c ≠ 0) :
    (sum [.num r, .prod [int c, minusOne]]).has (.sum [.num r, (int c).neg]) = false := by
  have hnum (a : Number) : (num a).isWhole (.sum [.num r, (int c).neg]) = false := rfl
  have htree : (sum [.num r, .prod [int c, minusOne]]).isWhole (.sum [.num r, (int c).neg]) = false := by
    show ((agree Number.same (num r) (num r) && (false && _)) || false) = false
    rw [Bool.false_and, Bool.and_false]
    rfl
  have hproduct : (prod [int c, minusOne]).isWhole (.sum [.num r, (int c).neg]) = false := by
    show (false || (_ && (false && _))) = false
    rw [Bool.false_and, Bool.and_false]
    rfl
  refine has_beside_eq_false r ?_ ?_ rfl ?_
  · have hwhole (a : Number) : (num a).hasWhole (.sum [.num r, (int c).neg]) = false :=
      (hasWhole_num _ _).trans (hnum a)
    simp only [hasWhole_sum, hasWhole_prod, htree, hproduct, List.any_cons, List.any_nil, hwhole,
      Bool.false_or, Bool.or_false]
    exact Bool.or_eq_false_iff.2 ⟨hwhole _, hwhole _⟩
  · have hsecond : (num (-Number.int c) == prod [int c, minusOne]) = false := rfl
    have herase : [num r, num (-Number.int c)].eraseP (· == num r) = [num (-Number.int c)] :=
      List.eraseP_cons_of_pos (beq_refl _)
    rw [Target.sumRest?, plainTerms_stray r hone hzero]
    show Target.difference? [num r, num (-Number.int c)] [num r, prod [int c, minusOne]] = none
    rw [Target.difference?, if_pos (by simp), herase, Target.difference?,
      List.any_cons, hsecond]
    rfl
  · exact List.forall_mem_cons.2 ⟨count_num_eq_zero (hnum _),
      List.forall_mem_singleton.2 (count_num_eq_zero (hnum _))⟩

end Expr

end Workings

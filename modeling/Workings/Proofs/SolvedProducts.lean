import Workings.Proofs.Comparing
import Workings.Proofs.Distributing
import Workings.Proofs.Equality
import Workings.Proofs.NormalForm
import Workings.Proofs.Turning

/-!
# Products and powers of integers are solved exactly

Without zeros, no product on the way is greater than the last one, whatever the order of the factors is
(`delivers_multiplyAll`). So a product of words is worked out to their product (`delivers_product`), and a
power of words to their power, whether it is left to the calculator, becomes a product of equal factors, or
is computed directly, and for the bases that have a rule of their own (`delivered_power`). Words are not
estimated if the threshold is at least twenty digits. Without one, this holds under all options
(`solve_products_exact`).
-/

namespace Workings

open Work (Delivered Delivers delivers_options delivers_changeWith delivers_changeIfPresent delivers_wording
  delivers_become delivers_written)

/-! ### Factors -/

/-- An integer with an opposite that is not zero. -/
structure Number.Factor (n : Number) : Prop where
  whole : n.Whole
  ne_zero : n.toInt ≠ 0

theorem Number.prod_ne_zero {values : List Number} (h : ∀ n ∈ values, n.Factor) :
    (values.map Number.toInt).prod ≠ 0 := by
  refine List.prod_ne_zero fun hmem => ?_
  obtain ⟨n, hn, hzero⟩ := List.mem_map.1 hmem
  exact (h n hn).ne_zero hzero

/-- Two factors of a word have at most twenty digits. -/
theorem Number.Factor.complexity_le {a b : Number} (ha : a.Factor) (hb : b.Factor)
    (hbound : (a.toInt * b.toInt).natAbs < 2 ^ 63) : a.complexity + b.complexity ≤ 20 := by
  have hcomplexity {n : Number} (hn : n.Factor) : ∃ k, n.complexity = k + 1 ∧ 10 ^ k ≤ n.toInt.natAbs := by
    obtain ⟨k, hk, hlow, -⟩ := exists_length_toDigits (Int.natAbs_pos.2 hn.ne_zero)
    cases n with
    | int m => exact ⟨k, hk, hlow⟩
    | float y => exact hn.whole.elim
  obtain ⟨j, hj, hleft⟩ := hcomplexity ha
  obtain ⟨k, hk, hright⟩ := hcomplexity hb
  have hpower : 10 ^ (j + k) < 10 ^ 19 :=
    calc 10 ^ (j + k) = 10 ^ j * 10 ^ k := pow_add ..
      _ ≤ a.toInt.natAbs * b.toInt.natAbs := Nat.mul_le_mul hleft hright
      _ = (a.toInt * b.toInt).natAbs := (Int.natAbs_mul ..).symm
      _ < 2 ^ 63 := hbound
      _ < 10 ^ 19 := by decide
  have hlt := (Nat.pow_lt_pow_iff_right (by decide)).1 hpower
  omega

namespace Simplify

section

variable {o : Options} {simplify : Simplifier} {c : Int64}

/-! ### Products -/

section

variable (hthreshold : ∀ threshold ∈ o.magnitudeThreshold, 20 ≤ threshold) {values : List Number}
  (hmin : c ≠ Int64.minValue)

include hthreshold hmin

/-- The numbers are multiplied one after the other to the product so far. -/
theorem delivers_multiplyAll {total : Number} (htotal : total.Factor) (hvalues : ∀ n ∈ values, n.Factor)
    (hc : c.toInt = total.toInt * (values.map Number.toInt).prod) :
    Delivers o (multiplyAll (.num total) values) fun result => result = (.int c, []) := by
  induction values generalizing total with
  | nil =>
    obtain rfl : total = .int c := htotal.whole.eq_int (by simpa using hc.symm)
    exact .pure rfl
  | cons n values ih =>
    obtain ⟨hn, hvalues⟩ := List.forall_mem_cons.1 hvalues
    rw [List.map_cons, List.prod_cons, ← mul_assoc] at hc
    have hbound : (total.toInt * n.toInt).natAbs < 2 ^ 63 := by
      refine lt_of_le_of_lt ?_ (Number.Whole.natAbs_lt (n := .int c) hmin)
      rw [show (Number.int c).toInt = _ from hc, Int.natAbs_mul _ (List.prod _)]
      exact Nat.le_mul_of_pos_right _ (Int.natAbs_pos.2 (Number.prod_ne_zero hvalues))
    obtain ⟨hwhole, hvalue⟩ := Number.whole_ofInt hbound
    have hshort : ∀ threshold ∈ o.magnitudeThreshold, total.complexity + n.complexity ≤ threshold :=
      fun threshold hmem => (htotal.complexity_le hn hbound).trans (hthreshold threshold hmem)
    refine (delivers_multiply true total n).bind fun e he => ?_
    obtain rfl := he hshort _ ⟨htotal.whole, hn.whole, hvalue⟩
    refine ih ⟨hwhole, ?_⟩ hvalues (by rw [hvalue, hc])
    rw [hvalue]
    exact mul_ne_zero htotal.ne_zero hn.ne_zero

/-- Several numbers without other factors are multiplied to one. -/
theorem delivers_multiplyNumbers (hne : values ≠ []) (hvalues : ∀ n ∈ values, n.Factor)
    (hc : c.toInt = (values.map Number.toInt).prod) (current : Expr) :
    Delivers o (multiplyNumbers current values []) fun result => result = .int c := by
  obtain ⟨first, rest, rfl⟩ := List.exists_cons_of_ne_nil hne
  obtain ⟨hfirst, hrest⟩ := List.forall_mem_cons.1 hvalues
  unfold multiplyNumbers
  have hblock : Delivers o (Work.withBlock [current] fun id => do
      let found ← multiplyAll (.num first) rest
      return (found.1, found.2, ((← get).blockItem? id 0).getD current))
      fun found => found.1 = .int c ∧ found.2.1 = [] := by
    refine .withBlock fun id => ?_
    refine (delivers_multiplyAll hthreshold hmin hfirst hrest hc).bind fun result hresult => ?_
    subst hresult
    exact .look fun _ _ => .pure ⟨rfl, rfl⟩
  refine hblock.bind fun found hfound => ?_
  obtain ⟨result, leftover, inTree⟩ := found
  obtain ⟨rfl, rfl⟩ := hfound
  exact .ite (fun _ => .pure rfl) fun hnot => absurd rfl hnot

omit hthreshold hmin in
theorem firstSum?_numbers (values : List Number) : firstSum? (values.map .num) = none := by
  induction values with
  | nil => rfl
  | cons n values ih =>
    rw [List.map_cons, firstSum?, ih]
    · rfl
    · exact nofun

/-- Numbers are sorted and multiplied. -/
theorem delivers_factors (htwo : 2 ≤ values.length) (hvalues : ∀ n ∈ values, n.Factor)
    (hc : c.toInt = (values.map Number.toInt).prod) (current : Expr) :
    Delivers o (factors simplify current (values.map .num)) fun result => result = .int c := by
  have hsorted := perm_canonicalSort (values.map Expr.num)
  have hnumbers : ((Expr.canonicalSort (values.map .num)).filterMap Expr.number?).Perm values := by
    have hperm := hsorted.filterMap Expr.number?
    rwa [Expr.filterMap_numbers] at hperm
  have hothers : (Expr.canonicalSort (values.map .num)).filter (!·.isNumber) = [] := by
    have hperm := hsorted.filter (!·.isNumber)
    rw [Expr.filter_numbers] at hperm
    exact hperm.eq_nil
  unfold factors
  rw [firstSum?_numbers]
  dsimp only
  rw [hothers, if_neg (by rw [hnumbers.length_eq]; omega)]
  refine delivers_multiplyNumbers hthreshold hmin (fun hnil => ?_)
    (fun n hn => hvalues n (hnumbers.mem_iff.1 hn)) (hc.trans (hnumbers.map _).prod_eq.symm) current
  rw [← hnumbers.length_eq, hnil] at htwo
  cases htwo

omit hthreshold hmin in
/-- Ones may be left out of a product. -/
theorem prod_filter_not_one (hvalues : ∀ n ∈ values, n.Whole) :
    ((values.filter (!· == 1)).map Number.toInt).prod = (values.map Number.toInt).prod := by
  induction values with
  | nil => rfl
  | cons n values ih =>
    obtain ⟨hn, hvalues⟩ := List.forall_mem_cons.1 hvalues
    rw [List.map_cons, List.prod_cons, ← ih hvalues]
    cases hone : n == 1 with
    | true =>
      have hvalue : n.toInt = 1 := hn.beq_iff.1 hone
      rw [List.filter_cons_of_neg (by simp [hone]), hvalue, one_mul]
    | false => rw [List.filter_cons_of_pos (by simp [hone]), List.map_cons, List.prod_cons]

omit hthreshold hmin in
/-- A product with a zero among its factors is zero. -/
theorem eq_zero_of_any_zero (hvalues : ∀ n ∈ values, n.Whole) (hc : c.toInt = (values.map Number.toInt).prod)
    (h : (values.map Expr.num).any (·.isValue 0) = true) : c = 0 := by
  obtain ⟨_, hmem, hvalue⟩ := List.any_eq_true.1 h
  obtain ⟨n, hn, rfl⟩ := List.mem_map.1 hmem
  have hmem : (0 : Int) ∈ values.map Number.toInt :=
    List.mem_map.2 ⟨n, hn, (hvalues n hn).beq_iff.1 hvalue⟩
  exact Int64.toInt_inj.1 (hc.trans (List.prod_eq_zero hmem))

/-- A product whose factors are simplified to integers is simplified to the product of these. -/
theorem delivered_product {parts : List Expr} {s : Sheet} (hs : s.options = o)
    (hzero : parts.any (·.isValue 0) = true → c = 0)
    (hsiblings : Delivered o (fun simplified => simplified = values.map .num)
      (Work.exec (siblings simplify parts) s))
    (hvalues : ∀ n ∈ values, n.Whole) (hc : c.toInt = (values.map Number.toInt).prod) :
    Delivered o (fun result => result = .int c) (Work.exec (product simplify parts) s) := by
  have hkept : (values.map Expr.num).filter (!·.isValue 1) = (values.filter (!· == 1)).map .num :=
    List.filter_map
  have hprod := (prod_filter_not_one hvalues).trans hc.symm
  unfold product
  by_cases hany : parts.any (·.isValue 0) = true
  · obtain rfl := hzero hany
    have hchange : Delivers o (Work.change (.prod parts) 0 >>= fun _ => pure (0 : Expr))
        fun result => result = .int 0 := (delivers_changeWith _).andThen fun _ => .pure rfl
    rw [if_pos hany]
    exact hchange.run s hs
  rw [if_neg hany]
  refine hsiblings.bind fun simplified hsimplified => ?_
  subst hsimplified
  extract_lets inTree
  refine .ite (fun hany => ?_) fun hnone => ?_
  · obtain rfl := eq_zero_of_any_zero hvalues hc hany
    exact (delivers_changeWith _).andThen fun _ => .pure rfl
  have hfactors : ∀ n ∈ values.filter (!· == 1), n.Factor := by
    intro n hn
    have hmem := (List.mem_filter.1 hn).1
    refine ⟨hvalues n hmem, fun hvalue => hnone ?_⟩
    exact List.any_eq_true.2 ⟨_, List.mem_map_of_mem hmem, (hvalues n hmem).beq_iff.2 hvalue⟩
  rw [hkept]
  generalize values.filter (!· == 1) = kept at hprod hfactors
  rcases kept with _ | ⟨only, _ | ⟨second, rest⟩⟩
  · obtain rfl : c = 1 := Int64.toInt_inj.1 hprod.symm
    exact (delivers_changeWith _).andThen fun _ => .pure rfl
  · have honly := (hfactors only List.mem_cons_self).whole.eq_int (c := c) (by simpa using hprod)
    exact (delivers_changeWith _).andThen fun _ => .pure (congrArg Expr.num honly)
  · refine (delivers_become ..).andThen fun _ => ?_
    exact delivers_factors hthreshold hmin (by simp) hfactors hprod.symm _

/-- A product of integers is simplified to their product. -/
theorem delivers_product (hvalues : ∀ n ∈ values, n.Whole)
    (hc : c.toInt = (values.map Number.toInt).prod)
    (hsimplify : ∀ n ∈ values, ∀ s : Sheet, s.options = o →
      Work.exec (simplify (.num n)) s = (.ok (.num n), s)) :
    Delivers o (product simplify (values.map .num)) fun result => result = .int c := by
  refine ⟨fun s hs => delivered_product hthreshold hmin hs (eq_zero_of_any_zero hvalues hc) ?_ hvalues hc⟩
  have hkept : Work.exec (siblings simplify (values.map .num)) s = (.ok (values.map .num), s) := by
    refine exec_siblings fun e he => ?_
    obtain ⟨n, hn, rfl⟩ := List.mem_map.1 he
    exact hsimplify n hn _ hs
  rw [hkept]
  exact .ok rfl hs

end

/-! ### Powers -/

section

variable {b n : Int64}

/-- A natural number up to the greatest exponent is not beyond it. -/
theorem isBeyondLimit_eq_false (hlow : 0 ≤ n.toInt) (hhigh : n ≤ o.maxExponent) (base : Number) :
    isBeyondLimit o base (.int n) = false := by
  have habs : (Number.int n).abs = .int n := by
    refine if_neg fun hneg => ?_
    have hlt : n.toInt < 0 := Int64.lt_iff_toInt_lt.1 (of_decide_eq_true hneg)
    omega
  have hnot : ¬ Float.ofInt o.maxExponent.toInt < Float.ofInt n.toInt :=
    not_ofInt_lt_ofInt (Int64.le_iff_toInt_le.1 hhigh) (abs_toInt_lt n) (abs_toInt_lt _)
  unfold isBeyondLimit
  rw [habs, Bool.and_eq_false_iff, Bool.and_eq_false_iff]
  exact .inl (.inl (decide_eq_false hnot))

theorem delivers_powerOfNumbers {current : Expr} {value : Expr → Work Expr} {post : Expr → Prop}
    (hpow : (Number.int b).pow? (.int n) = some (.int c)) (hvalue : Delivers o (value (.int c)) post) :
    Delivers o (powerOfNumbers current (.int b) (.int n) value) post := by
  unfold powerOfNumbers
  rw [hpow]
  refine .ite (fun hnan => ?_) fun _ => hvalue
  rw [Number.isNaN_int] at hnan
  cases hnan

/-- Unless a power has too many digits it is not estimated. -/
theorem ifLonger_eq_none {threshold? digits? : Option Nat}
    (h : ∀ threshold ∈ threshold?, ∀ digits ∈ digits?, digits ≤ threshold) :
    (do
      let threshold ← threshold?
      let digits ← digits?
      if threshold < digits then some digits else none) = none := by
  cases threshold? with
  | none => rfl
  | some threshold =>
    cases digits? with
    | none => rfl
    | some digits => exact if_neg (not_lt.2 (h threshold rfl digits rfl))

variable (hestimate : ∀ threshold ∈ o.magnitudeThreshold, ∀ digits ∈ powerDigits? (.int b) (.int n),
    digits ≤ threshold) (hlow : 0 ≤ n.toInt) (hhigh : n ≤ o.maxExponent)
  (hpow : (Number.int b).pow? (.int n) = some (.int c))
  (hexpanded : Delivers o (simplify (.prod (List.replicate n.toInt.toNat (.int b))))
    fun result => result = .int c)

include hestimate hlow hhigh hpow hexpanded

/-- All ways of working out a power of words lead to the power. -/
theorem delivers_numericPower (current : Expr) :
    Delivers o (numericPower simplify current (.int b) (.int n)) fun result => result = .int c := by
  unfold numericPower
  refine delivers_options.bind fun options hoptions => ?_
  subst hoptions
  rw [isBeyondLimit_eq_false hlow hhigh, if_neg Bool.false_ne_true, ifLonger_eq_none hestimate]
  refine .ite (fun _ => delivers_powerOfNumbers hpow ?_) fun _ => ?_
  · refine (delivers_calculatorMessage ..).andThen fun message => ?_
    exact (delivers_changeWith _).andThen fun _ => .pure rfl
  split
  · rename_i count hcount
    obtain rfl := expansion?_eq_some hcount
    exact (delivers_changeWith _).andThen fun _ => hexpanded
  · refine delivers_powerOfNumbers hpow ?_
    exact (delivers_changeIfPresent _).andThen fun _ => .pure rfl

end

/-! ### Powers of small bases -/

section

variable {b n : Int64}
  (hexponent : ∀ s : Sheet, s.options = o → Work.exec (simplify (.int n)) s = (.ok (.int n), s))

include hexponent

/-- Zero to a positive power is zero. -/
theorem delivers_zeroBase (hpos : 0 < n.toInt) (base : Expr) :
    Delivers o (zeroBase simplify base (.int n)) fun result => result = .int 0 := by
  refine .look fun s _ => ?_
  have hside : Delivers o (Work.onTheSide (.int n) s.bindings (simplify (.int n)))
      fun found => found.1 = .int n := by
    refine ⟨fun t ht => ?_⟩
    rw [Work.exec_onTheSide, hexponent (t.aside (.int n) s.bindings) ht]
    exact .ok rfl ht
  refine hside.bind fun (preview, side) hpreview => ?_
  obtain rfl : preview = .int n := hpreview
  refine .ite (fun hzero => ?_) fun _ => .ite (fun _ => ?_) fun hnot => ?_
  · rw [show n = 0 from eq_of_beq hzero] at hpos
    exact absurd hpos (by decide)
  · exact (delivers_wording ..).andThen fun message => (delivers_changeWith _).andThen fun _ => .pure rfl
  · exact absurd (zero_lt_ofInt hpos) hnot

/-- One to any power is one. -/
theorem delivers_oneBase (base : Expr) :
    Delivers o (oneBase simplify base (.int n)) fun result => result = .int 1 := by
  refine (Delivers.of_exec hexponent).andThen fun exponent => ?_
  refine (delivers_written _).andThen fun _ => (delivers_written _).andThen fun _ => ?_
  exact (delivers_wording ..).andThen fun message => (delivers_changeWith _).andThen fun _ => .pure rfl

omit hexponent in
/-- The powers of minus one have the sign that their exponent says. -/
theorem delivers_minusOnePower (hlow : 0 ≤ n.toInt) {c : Int64} (hc : c.toInt = (-1) ^ n.toInt.toNat)
    (current : Expr) : Delivers o (minusOnePower current (.int n)) fun result => result = .int c := by
  refine (delivers_wording ..).andThen fun message => (delivers_changeWith _).andThen fun _ => .pure ?_
  by_cases heven : n.toInt % 2 = 0
  · have hone : (-1 : Int) ^ n.toInt.toNat = 1 := Even.neg_one_pow (Nat.even_iff.2 (by omega))
    obtain rfl : c = 1 := Int64.toInt_inj.1 (hc.trans hone)
    exact if_pos (beq_of_eq heven)
  · have hminus : (-1 : Int) ^ n.toInt.toNat = -1 := Odd.neg_one_pow (Nat.odd_iff.2 (by omega))
    obtain rfl : c = -1 := Int64.toInt_inj.1 (hc.trans hminus)
    exact if_neg fun h => heven (eq_of_beq h)

variable (hestimate : ∀ threshold ∈ o.magnitudeThreshold, ∀ digits ∈ powerDigits? (.int b) (.int n),
    digits ≤ threshold) (hlow : 0 ≤ n.toInt) (hhigh : n ≤ o.maxExponent)
  (hc : c.toInt = b.toInt ^ n.toInt.toNat)
  (hexpanded : Delivers o (simplify (.prod (List.replicate n.toInt.toNat (.int b))))
    fun result => result = .int c)

include hestimate hlow hhigh hc hexpanded

/-- A power whose base is simplified to a word and whose exponent stays one is simplified to the power. -/
theorem delivered_power {base exponent : Expr} {s : Sheet} (hdefined : b = 0 → n.toInt ≠ 0)
    (hpow : 2 ≤ b.toInt.natAbs → (Number.int b).pow? (.int n) = some (.int c))
    (hparts : Delivered o (fun parts => parts = (.int b, .int n)) (Work.exec (Work.withBlock [exponent]
      fun id => do
        let base ← simplify base
        return (base, ((← get).blockItem? id 0).getD exponent)) s)) :
    Delivered o (fun result => result = .int c) (Work.exec (power simplify base exponent) s) := by
  unfold power
  refine hparts.bind fun parts heq => ?_
  subst heq
  refine .ite (fun hzero => ?_) fun hzero => .ite (fun hone => ?_) fun hone => ?_
  · obtain rfl : b = 0 := eq_of_beq hzero
    have hne := hdefined rfl
    obtain rfl : c = 0 := Int64.toInt_inj.1 (hc.trans (zero_pow (by omega)))
    exact delivers_zeroBase hexponent (by omega) _
  · obtain rfl : b = 1 := eq_of_beq hone
    obtain rfl : c = 1 := Int64.toInt_inj.1 (hc.trans (one_pow _))
    exact delivers_oneBase hexponent _
  refine .ite (fun hroot => absurd hroot Bool.false_ne_true) fun _ => ?_
  refine (Delivers.of_exec hexponent).bind fun exponent heq => ?_
  subst heq
  refine .ite (fun hminus => ?_) fun hminus => ?_
  · obtain rfl : b = -1 := eq_of_beq (Bool.and_eq_true_iff.1 hminus).1
    exact delivers_minusOnePower hlow hc _
  · refine delivers_numericPower hestimate hlow hhigh (hpow ?_) hexpanded _
    have hne (k : Int64) (hk : (b == k) ≠ true) : b.toInt ≠ k.toInt := fun h =>
      hk (beq_of_eq (Int64.toInt_inj.1 h))
    have hzero' := hne 0 hzero
    have hone' := hne 1 hone
    have hminus' := hne (-1) fun h => hminus (Bool.and_eq_true_iff.2 ⟨h, rfl⟩)
    change b.toInt ≠ 0 at hzero'
    change b.toInt ≠ 1 at hone'
    change b.toInt ≠ -1 at hminus'
    omega

end

end

end Simplify

/-- A product of words is simplified to their product. -/
theorem delivers_simplifyAt_product {o : Options}
    (hthreshold : ∀ threshold ∈ o.magnitudeThreshold, 20 ≤ threshold)
    {ns : List Int64} (hns : ∀ n ∈ ns, n ≠ Int64.minValue) {c : Int64} (hmin : c ≠ Int64.minValue)
    (hc : c.toInt = (ns.map Int64.toInt).prod) (hclamp : ∀ n ∈ ns, o.clamp (.int n) = .int n)
    (depth : Nat) :
    Delivers o (Expr.simplifyAt (depth + 2) (.prod (ns.map .int))) fun result => result = .int c := by
  have hproduct : Delivers o (Simplify.product (Expr.simplifyAt (depth + 1))
      ((ns.map Number.int).map .num)) fun result => result = .int c := by
    refine Simplify.delivers_product hthreshold hmin (List.forall_mem_map.2 hns) ?_
      (List.forall_mem_map.2 fun n hn => ?_)
    · rw [hc, List.map_map]
      rfl
    · rintro s rfl
      exact Simplify.exec_literal (hclamp n hn)
  rw [List.map_map] at hproduct
  exact hproduct

section

variable {o : Options} (hthreshold : ∀ threshold ∈ o.magnitudeThreshold, 20 ≤ threshold) {b n c : Int64}
  (hestimate : ∀ threshold ∈ o.magnitudeThreshold, ∀ digits ∈ powerDigits? (.int b) (.int n),
    digits ≤ threshold)
  (hmin : c ≠ Int64.minValue) (hdefined : b = 0 → n.toInt ≠ 0) (hlow : 0 ≤ n.toInt)
  (hhigh : n ≤ o.maxExponent) (hc : c.toInt = b.toInt ^ n.toInt.toNat) (hbase : o.clamp (.int b) = .int b)
  (hexponent : o.clamp (.int n) = .int n)

include hthreshold hestimate hmin hdefined hlow hhigh hc hbase hexponent

/-- A power whose base is simplified to a word and whose exponent stays one is simplified to the power. -/
theorem delivered_simplifyAt_power (depth : Nat) {base exponent : Expr} {s : Sheet}
    (hparts : Delivered o (fun parts => parts = (.int b, .int n)) (Work.exec (Work.withBlock [exponent]
      fun id => do
        let base ← Expr.simplifyAt (depth + 2) base
        return (base, ((← get).blockItem? id 0).getD exponent)) s)) :
    Delivered o (fun result => result = .int c)
      (Work.exec (Expr.simplifyAt (depth + 3) (.pow base exponent)) s) := by
  have hbound : b.toInt.natAbs ^ n.toInt.toNat < 2 ^ 63 := by
    rw [← Int.natAbs_pow, ← hc]
    exact Number.Whole.natAbs_lt (n := .int c) hmin
  -- the least word occurs as a base only with the exponent zero, and then it is not among the factors
  have hfactors : ∀ k ∈ List.replicate n.toInt.toNat b, k ≠ Int64.minValue := by
    rintro k hk rfl
    obtain ⟨hne, rfl⟩ := List.mem_replicate.1 hk
    exact absurd (Nat.le_self_pow hne _) (not_le.2 (hbound.trans_eq (by decide)))
  have hexpanded := delivers_simplifyAt_product hthreshold hfactors hmin
    (by rw [hc, List.map_replicate, List.prod_replicate])
    (fun k hk => (List.mem_replicate.1 hk).2 ▸ hbase) depth
  rw [List.map_replicate] at hexpanded
  exact Simplify.delivered_power (fun s hs => Simplify.exec_literal (hs ▸ hexponent)) hestimate hlow hhigh
    hc hexpanded hdefined (fun hb => Number.pow?_int hb hlow hbound hc) hparts

/-- A power of words is simplified to the power. -/
theorem delivers_simplifyAt_power (depth : Nat) :
    Delivers o (Expr.simplifyAt (depth + 3) (.pow (.int b) (.int n))) fun result => result = .int c := by
  refine ⟨fun s hs => delivered_simplifyAt_power hthreshold hestimate hmin hdefined hlow hhigh hc
    hbase hexponent depth ?_⟩
  have hparts : Work.exec (Work.withBlock [.int n] fun id => do
      let base ← Expr.simplifyAt (depth + 2) (.int b)
      return (base, ((← get).blockItem? id 0).getD (.int n))) s = (.ok (.int b, .int n), s) := by
    have hopened : Work.exec (Expr.simplifyAt (depth + 2) (.int b))
        { s with blocks := s.blocks ++ [[.int n]] } =
          (.ok (.int b), { s with blocks := s.blocks ++ [[.int n]] }) :=
      Simplify.exec_literal (hs ▸ hbase)
    refine Work.exec_withBlock_self ?_
    rw [Work.exec_bind_ok hopened, Work.exec_get_bind, Sheet.blockItem?, Simplify.block_append]
    rfl
  rw [hparts]
  exact .ok rfl hs

end

/-- If simplifying an expression can only lead to a word or a missing part, every solution is the word, and
on a tolerant sheet there is a solution. -/
theorem solve_of_delivered {e : Expr} {c : Int64} {options : Options} {bindings : Bindings} {strict : Bool}
    (hself : bindings.replaceSymbols e = e)
    (h : Delivered options (fun result => result = .int c)
      (Work.exec (Expr.simplify e) (Sheet.new e bindings options strict))) :
    (∀ result sheet, solve e bindings options strict = .ok (result, sheet) → result = .int c) ∧
      (strict = false → ∃ sheet, solve e bindings options strict = .ok (.int c, sheet)) := by
  rcases hexec : Work.exec (Expr.simplify e) (Sheet.new e bindings options strict) with ⟨outcome, t⟩
  rw [hexec] at h
  cases h with
  | ok hresult _ =>
    subst hresult
    have hsolves := solve_of_simplify hself hexec (fun n hn => by cases hn; rfl) rfl
    refine ⟨fun result sheet hsolve => ?_, fun _ => ⟨t, hsolves⟩⟩
    cases hsolves.symm.trans hsolve
    rfl
  | absent =>
    have hends := solve_of_absent hself hexec
    refine ⟨fun result sheet hsolve => ?_, fun htolerant => ?_⟩
    · cases hends.symm.trans hsolve
    · have hgoes := (Expr.simplifyAt_routine Expr.maxDepth e).goesOn
        (s := Sheet.new e bindings options strict) htolerant
      change Work.GoesOn _ (Work.exec (Expr.simplify e) _) at hgoes
      rw [hexec] at hgoes
      exact hgoes.unbroken.elim

/-- Work on a tolerant sheet that can only end in one way is the solution. -/
theorem solve_of_delivers {e : Expr} {c : Int64} {options : Options} {bindings : Bindings}
    (hself : bindings.replaceSymbols e = e)
    (h : Delivers options (Expr.simplify e) fun result => result = .int c) :
    ∃ s, solve e bindings options false = .ok (.int c, s) :=
  (solve_of_delivered hself (h.run _ rfl)).2 rfl

/-- Products and powers of integers are solved exactly. Whatever the options and the bindings are, as long
as no result is estimated by its order of magnitude and every number is taken for itself, a product of words
is worked out on a tolerant sheet to their product, and a power of words with a natural exponent up to the
greatest one to the power, as long as these are words with an opposite. -/
theorem solve_products_exact (options : Options) (hthreshold : options.magnitudeThreshold = none)
    (bindings : Bindings) :
    (∀ ns : List Int64, (∀ n ∈ ns, n ≠ Int64.minValue) →
      (ns.map Int64.toInt).prod.natAbs < 2 ^ 63 → (∀ n ∈ ns, options.clamp (.int n) = .int n) →
      ∃ s, solve (.prod (ns.map .int)) bindings options false =
        .ok (.int (.ofInt (ns.map Int64.toInt).prod), s)) ∧
    ∀ b n : Int64, 2 ≤ b.toInt.natAbs → 0 ≤ n.toInt → n ≤ options.maxExponent →
      b.toInt.natAbs ^ n.toInt.toNat < 2 ^ 63 → options.clamp (.int b) = .int b →
      options.clamp (.int n) = .int n →
      ∃ s, solve (.pow (.int b) (.int n)) bindings options false =
        .ok (.int (.ofInt (b.toInt ^ n.toInt.toNat)), s) := by
  constructor
  · intro ns hns hbound hclamp
    obtain ⟨hmin, hvalue⟩ := Number.whole_ofInt hbound
    refine solve_of_delivers ?_ (delivers_simplifyAt_product (by simp [hthreshold]) hns hmin hvalue hclamp
      65534)
    show Expr.prod (Expr.allWithValues _ _) = Expr.prod _
    rw [Expr.allWithValues_eq_map, List.map_map]
    rfl
  · intro b n hb hlow hhigh hbound hbase hexponent
    rw [← Int.natAbs_pow] at hbound
    obtain ⟨hmin, hvalue⟩ := Number.whole_ofInt hbound
    have hdefined : b = 0 → n.toInt ≠ 0 := by
      rintro rfl
      exact absurd hb (by decide)
    exact solve_of_delivers rfl
      (delivers_simplifyAt_power (by simp [hthreshold]) (by simp [hthreshold]) hmin hdefined hlow hhigh
        hvalue hbase hexponent 65533)

/-- In `-12 * 1 * 35 * 98` the one is left out, and `(-7) ^ 5` is an odd power of a negative base. -/
theorem solve_products_exact_negative :
    (∃ s, solve (.prod ([-12, 1, 35, 98].map .int)) {} { magnitudeThreshold := none } false =
      .ok (.int (-41160), s)) ∧
    ∃ s, solve (.pow (.int (-7)) (.int 5)) {} { magnitudeThreshold := none } false =
      .ok (.int (-16807), s) := by
  have hns : ∀ n ∈ [-12, 1, 35, 98], n ≠ Int64.minValue := by
    simp only [List.forall_mem_cons]
    exact ⟨by decide, by decide, by decide, by decide, fun _ hn => nomatch hn⟩
  have hclamp (n : Int64) : ({ magnitudeThreshold := none } : Options).clamp (.int n) = .int n :=
    Simplify.clamp_int (by decide +kernel) rfl n
  have hproduct : Int64.ofInt (List.map Int64.toInt [-12, 1, 35, 98]).prod = -41160 := rfl
  have hpower : Int64.ofInt (Int64.toInt (-7) ^ (Int64.toInt 5).toNat) = -16807 := rfl
  obtain ⟨hproducts, hpowers⟩ := solve_products_exact { magnitudeThreshold := none } rfl {}
  refine ⟨?_, ?_⟩
  · have hsolves := hproducts [-12, 1, 35, 98] hns (by decide) fun n _ => hclamp n
    rw [hproduct] at hsolves
    exact hsolves
  · have hsolves := hpowers (-7) 5 (by decide) (by decide) (by decide) (by decide) (hclamp _) (hclamp _)
    rw [hpower] at hsolves
    exact hsolves

end Workings

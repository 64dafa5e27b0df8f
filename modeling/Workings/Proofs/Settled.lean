import Mathlib.Algebra.BigOperators.Ring.Finset
import Workings.LongHand.Addition
import Workings.Proofs.Following

/-!
# Settled expressions

What an expression over the natural numbers is simplified to is `Expr.Settled`: a number, a product in
which nothing is left to do (`Expr.Monomial`), or a sum of these. Such a product is as large as its
value (`Expr.tight_of_factored`), so it can be put in the place of anything of the same value
(`Expr.Reduces.of_tight`). While the numbers of a sum are added, the sum stays one of settled terms
(`Progress.addition_replace`).
-/

namespace Workings

open Workings.Expr (Everywhere Plain)

namespace Expr

/-! ### Products that are worked out -/

/-- A node of a product in which nothing is left to do: no sum, no zero, and no product of fewer than
two factors. -/
def Factored : Expr → Prop
  | .num n => n.toInt ≠ 0
  | .sum _ => False
  | .prod factors => 2 ≤ factors.length
  | _ => True

/-- As large as its value, whatever a symbol counts as. -/
def Tight (e : Expr) : Prop :=
  ∀ w : ℕ, (e.bulk w : ℤ) = e.value (.integers fun _ => w)

theorem Tight.magnitude {e : Expr} (h : e.Tight) :
    (e.magnitude : ℤ) = e.value (.integers fun _ => 1) :=
  h 1

theorem cast_bulks {es : List Expr} (h : ∀ e ∈ es, e.Tight) (w : ℕ) :
    (es.map (bulk w)).map Nat.cast = es.map (value (.integers fun _ => w)) := by
  rw [List.map_map]
  exact List.map_congr_left fun e he => h e he w

theorem tight_prod {factors : List Expr} (h : ∀ f ∈ factors, f.Tight) : (prod factors).Tight := by
  intro w
  rw [bulk_prod, value_prod, ← cast_bulks h, Nat.cast_list_prod]

theorem tight_sum {terms : List Expr} (h : ∀ t ∈ terms, t.Tight) : (sum terms).Tight := by
  intro w
  rw [bulk_sum, value_sum, ← cast_bulks h, Nat.cast_list_sum]

theorem tight_of_factored {e : Expr} (he : e.Everywhere Plain) (h : e.Everywhere Factored) :
    e.Tight := by
  induction he with
  | @intro e here _ ih =>
    cases e with
    | num n =>
      cases n with
      | float x => exact here.elim
      | int n =>
        have hnonneg : 0 ≤ n.toInt := here
        have hne : n.toInt ≠ 0 := h.here
        intro w
        show ((max 1 n.toInt.natAbs : ℕ) : ℤ) = n.toInt
        omega
    | sym name => exact fun w => rfl
    | sum terms => exact h.here.elim
    | prod factors => exact tight_prod fun f hf => ih f hf (h.factors f hf)
    | pow base exponent =>
      obtain ⟨rfl, k, rfl, hlow, hhigh⟩ := here
      intro w
      rw [bulk_power]
      show ((10 ^ max 1 k.toInt.natAbs : ℕ) : ℤ) = 10 ^ k.toInt.toNat
      rw [show max 1 k.toInt.natAbs = k.toInt.toNat by omega]
      push_cast
      rfl
    | call _ _ _ _ | deriv _ _ | integral _ _ _ _ => exact here.elim

/-- An expression as large as its value can stand for anything with this value. -/
theorem Reduces.of_tight {a b : Expr} (ha : a.Everywhere Plain) (hr : a.Replaceable)
    (hb : b.Everywhere Plain) (htight : b.Tight)
    (hvalue : ∀ symbols, b.value (.integers symbols) = a.value (.integers symbols)) :
    Reduces a b := by
  refine .of_replaceable hr hb hvalue fun w hw => ?_
  have hle := (value_le_bulk w ha).2
  rw [← hvalue, ← htight] at hle
  exact_mod_cast hle

/-! ### Normalized products -/

theorem plain_zero : (0 : Expr).Everywhere Plain :=
  .num (show Number.Natural 0 by decide)

theorem plain_one : (1 : Expr).Everywhere Plain :=
  .num (show Number.Natural 1 by decide)

theorem plain_prodOf {factors : List Expr} (h : ∀ f ∈ factors, f.Everywhere Plain) :
    (prodOf factors).Everywhere Plain :=
  everywhere_prodOf plain_one.here trivial h

theorem plain_buildProd {factors : List Expr} (h : ∀ f ∈ factors, f.Everywhere Plain) :
    (buildProd factors).Everywhere Plain :=
  everywhere_buildProd plain_zero.here plain_one.here (fun _ _ => trivial) h

theorem value_buildProd_integers {factors : List Expr} (h : ∀ f ∈ factors, f.Everywhere Plain)
    (symbols : String → ℤ) :
    (buildProd factors).value (.integers symbols) =
      (factors.map (value (.integers symbols))).prod :=
  value_buildProd rfl (fun a => zero_mul a) fun f hf =>
    (h f hf).mono fun e hplain => (Plain.regular e hplain).unrounded

theorem bulk_buildProd_le {w : ℕ} (hw : 1 ≤ w) {factors : List Expr}
    (h : ∀ f ∈ factors, f.Everywhere Plain) :
    (buildProd factors).bulk w ≤ (factors.map (bulk w)).prod := by
  have hunrounded : ∀ f ∈ factors, f.Everywhere Unrounded := fun f hf =>
    (h f hf).mono fun e hplain => (Plain.regular e hplain).unrounded
  unfold buildProd
  dsimp only
  split
  · have hone := one_le_bulk hw (.prod trivial h : (prod factors).Everywhere Plain)
    rw [bulk_prod] at hone
    exact hone
  · refine le_of_eq ?_
    exact (value_prodOf rfl _).trans (prod_flatFactors (m := Meaning.bulks w) rfl hunrounded)

theorem factored_prodOf {factors : List Expr} (h : ∀ f ∈ factors, f.Everywhere Factored) :
    (prodOf factors).Everywhere Factored := by
  unfold prodOf
  split
  · exact .num (show Number.toInt 1 ≠ 0 by decide)
  · exact h _ (by simp)
  · rename_i hnil hone
    refine .prod ?_ h
    match factors with
    | [] => exact (hnil rfl).elim
    | [f] => exact (hone f rfl).elim
    | _ :: _ :: _ => exact Nat.le_add_left 2 _

theorem not_zero_of_factored {e : Expr} (h : e.Everywhere Factored) (he : e.Everywhere Plain) :
    e.isValue 0 = false := by
  rw [Bool.eq_false_iff]
  intro hvalue
  have heq := eq_num_of_isValue (he.mono Plain.regular) (by decide) hvalue
  subst heq
  exact h.here (by decide)

theorem factored_buildProd {factors : List Expr} (hplain : ∀ f ∈ factors, f.Everywhere Plain)
    (h : ∀ f ∈ factors, f.Everywhere Factored) : (buildProd factors).Everywhere Factored := by
  have hflat := everywhere_flatFactors h
  have hzero : (flatFactors factors).any (·.isValue 0) = false := by
    rw [List.any_eq_false]
    intro f hf
    rw [not_zero_of_factored (hflat f hf) (everywhere_flatFactors hplain f hf)]
    exact Bool.false_ne_true
  unfold buildProd
  dsimp only
  rw [hzero]
  exact factored_prodOf hflat

/-! ### Settled expressions -/

/-- A product in which nothing is left to do, with something in it that is not a number. -/
structure Monomial (e : Expr) : Prop where
  factored : e.Everywhere Factored
  number : e.isNumber = false
  large : 10 ≤ e.value (.integers fun _ => 10)

/-- A number or a product in which nothing is left to do. -/
def Term (e : Expr) : Prop :=
  e.isNumber = true ∨ e.Monomial

/-- Terms of a sum, at least `k` of them, some of which are not numbers. -/
structure Terms (k : ℕ) (terms : List Expr) : Prop where
  term : ∀ t ∈ terms, t.Term
  length : k ≤ terms.length
  other : ∃ t ∈ terms, t.isNumber = false

/-- What nothing is left to do about. -/
inductive Settled : Expr → Prop
  | term {e : Expr} (h : e.Term) : Settled e
  | sum {terms : List Expr} (h : ∀ t ∈ terms, t.Term) (two : 2 ≤ terms.length) :
    Settled (.sum terms)

/-- Terms are compared as they are. -/
theorem plainTerms_eq {terms : List Expr} (hplain : ∀ t ∈ terms, t.Everywhere Plain)
    (h : ∀ t ∈ terms, t.Term) : Target.plainTerms terms = terms := by
  fun_induction Target.plainTerms terms with
  | case1 => rfl
  | case2 inner rest ih =>
    rcases h (.sum inner) (by simp) with hnumber | hmonomial
    · cases hnumber
    · exact hmonomial.factored.here.elim
  | case3 factor rest ih =>
    rcases h (.prod [factor]) (by simp) with hnumber | hmonomial
    · cases hnumber
    · have hlength : 2 ≤ [factor].length := hmonomial.factored.here
      simp at hlength
  | case4 a b rest ih =>
    have hpair := (hplain (.prod [a, b]) (by simp)).factors
    rw [plain_not_minusOne (hpair a (by simp)), plain_not_minusOne (hpair b (by simp))]
    rw [ih (fun t ht => hplain t (by simp [ht])) fun t ht => h t (by simp [ht])]
    rfl
  | case5 term rest _ _ _ ih =>
    rw [ih (fun t ht => hplain t (by simp [ht])) fun t ht => h t (by simp [ht])]

section

variable {r : Replacement} {wanted : List Expr}

/-- Where a sum is replaced, nothing takes the place of a node that is no sum. -/
theorem actsAt_eq_false {e : Expr} (htarget : r.target.literal = .sum wanted)
    (hneg : r.target.negated = r.target.literal.neg) (he : e.Everywhere Plain)
    (hsum : e.isSum = false) : r.actsAt e = false := by
  rw [Bool.eq_false_iff]
  intro hat
  obtain ⟨e', hacts⟩ : ∃ e', r.Acts e e' := ⟨_, Replacement.acts_apply hat⟩
  cases hacts with
  | literal heq =>
    rw [htarget] at heq
    cases e with
    | sum _ => cases hsum
    | _ => cases heq
  | negated _ heq =>
    rw [hneg, htarget] at heq
    cases e with
    | sum _ => cases hsum
    | prod factors =>
      change agreeAll Number.same factors [minusOne, .sum wanted] = true at heq
      cases (agreeAll_iff_forall₂ ..).1 heq with
      | @cons a _ _ _ hminus _ =>
        have hvalue : a.isValue (-1) = true := by
          cases a with
          | num n => exact hminus
          | _ => cases hminus
        rw [plain_not_minusOne (he.factors a (by simp))] at hvalue
        cases hvalue
    | _ => cases heq
  | product hrest =>
    obtain ⟨_, hprod, -⟩ := Target.exists_of_productRest? hrest
    cases htarget.symm.trans hprod
  | sum _ => cases hsum
  | pair hpair =>
    unfold Replacement.isNegatedPair at hpair
    rw [any_not_minusOne he.factors, Bool.and_false, Bool.false_and] at hpair
    cases hpair

/-- Where there is no sum, there is nothing to replace for a sum. -/
theorem apply_eq_self {e : Expr} (htarget : r.target.literal = .sum wanted)
    (hneg : r.target.negated = r.target.literal.neg) (he : e.Everywhere Plain)
    (hfactored : e.Everywhere Factored) : r.apply e = e := by
  induction he with
  | @intro e here parts ih =>
    have hsum : e.isSum = false := by
      cases e with
      | sum _ => exact hfactored.here.elim
      | _ => rfl
    have hat := actsAt_eq_false htarget hneg (.intro here parts) hsum
    cases e with
    | num n => exact Replacement.apply_num hat
    | sym name => exact Replacement.apply_sym hat
    | sum _ => cases hsum
    | prod factors =>
      have hmap : factors.map r.apply = factors := by
        refine (List.map_congr_left fun f hf => ?_).trans (List.map_id _)
        exact ih f hf (hfactored.factors f hf)
      rw [Replacement.apply_prod hat, hmap]
    | pow base exponent =>
      rw [Replacement.apply_pow hat,
        ih base (by simp [children]) (hfactored.parts _ (by simp [children])),
        ih exponent (by simp [children]) (hfactored.parts _ (by simp [children]))]
    | call _ _ _ _ | deriv _ _ | integral _ _ _ _ => exact here.elim

end

/-- A sum of at least `k` terms, some of which are not numbers. -/
def Polynomial (k : ℕ) (e : Expr) : Prop :=
  ∃ terms, e = .sum terms ∧ Terms k terms

theorem sumOfNumbers_ne {k : ℕ} {terms : List Expr} (h : Terms k terms) {numbers : List Number} :
    Expr.sum terms ≠ sumOfNumbers numbers := by
  intro heq
  obtain ⟨t, ht, hnumber⟩ := h.other
  cases heq
  obtain ⟨n, -, rfl⟩ := List.mem_map.1 ht
  cases hnumber

theorem plain_sumOfNumbers {numbers : List Number} (hne : numbers ≠ [])
    (h : ∀ n ∈ numbers, n.Natural) : (sumOfNumbers numbers).Everywhere Plain := by
  refine .sum (show numbers.map Expr.num ≠ [] by simpa using hne) fun t ht => ?_
  obtain ⟨n, hn, rfl⟩ := List.mem_map.1 ht
  exact .num (h n hn)

theorem unwrap_append {node : List Expr → Expr} {as bs : List Expr} (has : as ≠ [])
    (hbs : bs ≠ []) : unwrap node (as ++ bs) = node (as ++ bs) := by
  unfold unwrap
  split
  · rename_i only heq
    have hlength := congrArg List.length heq
    have ha := List.length_pos_iff.2 has
    have hb := List.length_pos_iff.2 hbs
    rw [List.length_append, List.length_singleton] at hlength
    omega
  · rfl

/-- Terms from which numbers are taken out and to which numbers are added are still such terms. A number
and a term that is none are left at least. -/
theorem polynomial_leftover? {k : ℕ} {terms rest values : List Expr} {numbers : List Number}
    (hplain : ∀ t ∈ terms, t.Everywhere Plain) (h : Terms k terms) (hk : k ≤ 2)
    (hnumbers : ∀ n ∈ numbers, n.Natural) (hvalues : ∀ t ∈ values, t.isNumber = true)
    (hne : values ≠ [])
    (hrest : Target.leftover? (Target.plainTerms terms)
      (Target.plainTerms (numbers.map Expr.num)) = some rest) :
    (unwrap .sum (values ++ rest)).Polynomial k := by
  have hwanted : ∀ t ∈ numbers.map Expr.num, t.Everywhere Plain := by
    intro t ht
    obtain ⟨n, hn, rfl⟩ := List.mem_map.1 ht
    exact .num (hnumbers n hn)
  have hnumber : ∀ t ∈ numbers.map Expr.num, t.Term := by
    intro t ht
    obtain ⟨n, -, rfl⟩ := List.mem_map.1 ht
    exact .inl rfl
  have hperm := Target.perm_of_leftover?
    (Target.regular_plainTerms fun t h => (hplain t h).mono Plain.regular)
    (Target.regular_plainTerms fun t h => (hwanted t h).mono Plain.regular) hrest
  rw [plainTerms_eq hplain h.term, plainTerms_eq hwanted hnumber] at hperm
  obtain ⟨t, ht, hother⟩ := h.other
  have hmem : t ∈ rest := by
    rcases List.mem_append.1 (hperm.mem_iff.1 ht) with hmem | hmem
    · obtain ⟨n, -, rfl⟩ := List.mem_map.1 hmem
      cases hother
    · exact hmem
  rw [unwrap_append hne (List.ne_nil_of_mem hmem)]
  refine ⟨_, rfl, fun t ht => ?_, ?_, t, by simp [hmem], hother⟩
  · rcases List.mem_append.1 ht with ht | ht
    · exact .inl (hvalues t ht)
    · exact h.term t (hperm.mem_iff.2 (by simp [ht]))
  · have hlength := List.length_pos_iff.2 hne
    have hrest := List.length_pos_of_mem hmem
    rw [List.length_append]
    omega

/-- Replacing a sum of numbers leaves a sum of terms, some of which are not numbers. -/
theorem polynomial_replace {k : ℕ} {tree result : Expr} {numbers : List Number}
    (htree : tree.Everywhere Plain) (h : tree.Polynomial k) (hk : k ≤ 2) (hnumbers : ∀ n ∈ numbers, n.Natural)
    (hne : numbers ≠ []) (hresult : ∀ t ∈ Replacement.asTerms result, t.isNumber = true)
    (hresult_ne : Replacement.asTerms result ≠ []) :
    (tree.replace (sumOfNumbers numbers) result).Polynomial k := by
  obtain ⟨terms, rfl, hterms⟩ := h
  obtain ⟨hliteral, hnegated⟩ := Target.within_eq (.sum terms) (sumOfNumbers numbers)
  have hplain := plain_sumOfNumbers hne hnumbers
  unfold replace
  generalize Target.within (.sum terms) (sumOfNumbers numbers) = target at hliteral hnegated
  generalize hr : (⟨target, result, result.neg⟩ : Replacement) = r
  have htarget : r.target.literal = sumOfNumbers numbers := by rw [← hr, hliteral]
  have hneg : r.target.negated = r.target.literal.neg := by rw [htarget, ← hr, hnegated]
  have hvalue : r.value = result := by rw [← hr]
  cases hat : r.actsAt (.sum terms) with
  | true =>
    have hacts := Replacement.acts_apply hat
    generalize r.apply (.sum terms) = e' at hacts
    cases hacts with
    | literal heq =>
      rw [htarget] at heq
      exact (sumOfNumbers_ne hterms
        (eq_of_beq (htree.mono Plain.regular) (hplain.mono Plain.regular) heq)).elim
    | negated _ heq =>
      rw [hneg, htarget] at heq
      cases heq
    | sum hrest =>
      rw [htarget] at hrest
      rw [hvalue]
      exact polynomial_leftover? htree.terms hterms hk hnumbers hresult hresult_ne hrest
  | false =>
    have hmap : terms.map r.apply = terms := by
      refine (List.map_congr_left fun t ht => ?_).trans (List.map_id _)
      rcases hterms.term t ht with hnumber | hmonomial
      · cases t with
        | num n => exact Replacement.apply_num (actsAt_eq_false htarget hneg (htree.terms _ ht) rfl)
        | _ => cases hnumber
      · exact apply_eq_self htarget hneg (htree.terms t ht) hmonomial.factored
    rw [Replacement.apply_sum hat, hmap]
    exact ⟨terms, rfl, hterms⟩

end Expr

/-- A plain tree is reduced, and a sum of terms stays one, of two terms at least if it is one of these. -/
def Progress.addition : Progress where
  rel a b := a.Everywhere Plain → a.Reduces b ∧ ∀ k ≤ 2, a.Polynomial k → b.Polynomial k
  refl _ ha := ⟨.refl ha, fun _ _ => id⟩
  trans hab hbc ha :=
    have hb := hab ha
    have hc := hbc hb.1.plain
    ⟨hb.1.trans hc.1, fun k hk h => hc.2 k hk (hb.2 k hk h)⟩

theorem Progress.reduction_of_addition (a b : Expr) (h : Progress.addition.rel a b) :
    Progress.reduction.rel a b :=
  fun ha => (h ha).1

/-- Replacing a sum of numbers by a number or a sum of numbers with the same sum. -/
theorem Progress.addition_replace {numbers : List Number} {result : Expr} (hne : numbers ≠ [])
    (hnumbers : ∀ n ∈ numbers, n.Natural) (h : (sumOfNumbers numbers).Reduces result)
    (hresult : ∀ t ∈ Replacement.asTerms result, t.isNumber = true)
    (hresult_ne : Replacement.asTerms result ≠ []) (tree : Expr) :
    Progress.addition.rel tree (tree.replace (sumOfNumbers numbers) result) := by
  intro htree
  refine ⟨h.replace (Expr.plain_sumOfNumbers hne hnumbers) ?_ htree, fun k hk hpolynomial => ?_⟩
  · exact Expr.replaceable_of_not_number rfl
  · exact Expr.polynomial_replace htree hpolynomial hk hnumbers hne hresult hresult_ne

end Workings

import Mathlib.Algebra.Order.Ring.Int
import Workings.Proofs.Multiplying
import Workings.Simplify.Product
import Workings.Simplify.Sum

/-!
# Collecting the terms of a sum and the factors of a product

The lists that the simplification of sums and products goes through: opened sums, like terms that are
combined, sorted factors and distributed products. Combining like terms keeps the value of the sum, and
leaves terms in which nothing is left to do (`combineLikeTerms_eq`).
-/

namespace Workings

open Workings.Expr (Everywhere Plain Factored)

namespace Expr

/-! ### Numbers and other parts -/

theorem perm_numbers (es : List Expr) :
    ((es.filterMap number?).map Expr.num ++ es.filter (!·.isNumber)).Perm es := by
  induction es with
  | nil => exact .nil
  | cons e es ih =>
    cases e with
    | num n => exact ih.cons _
    | _ => exact List.perm_middle.trans (ih.cons _)

theorem any_isSum_numbers (values : List Number) : (values.map num).any isSum = false := by
  rw [List.any_map]
  exact List.any_eq_false.2 fun _ _ => Bool.false_ne_true

theorem filterMap_numbers (values : List Number) : (values.map num).filterMap number? = values := by
  rw [List.filterMap_map]
  exact List.filterMap_some

theorem filter_numbers (values : List Number) : (values.map num).filter (!·.isNumber) = [] := by
  refine List.filter_eq_nil_iff.2 fun e he => ?_
  obtain ⟨n, -, rfl⟩ := List.mem_map.1 he
  exact Bool.false_ne_true

section

variable {R : Type*} [CommSemiring R] (m : Meaning R)

theorem sum_numbers (es : List Expr) :
    ((es.filterMap number?).map m.num).sum + ((es.filter (!·.isNumber)).map (value m)).sum =
      (es.map (value m)).sum := by
  rw [← ((perm_numbers es).map (value m)).sum_eq, List.map_append, List.sum_append, List.map_map]
  exact congrArg (· + _) (congrArg List.sum (List.map_congr_left fun n _ => (value_num m n).symm))

theorem prod_numbers (es : List Expr) :
    ((es.filterMap number?).map m.num).prod * ((es.filter (!·.isNumber)).map (value m)).prod =
      (es.map (value m)).prod := by
  rw [← ((perm_numbers es).map (value m)).prod_eq, List.map_append, List.prod_append, List.map_map]
  exact congrArg (· * _) (congrArg List.prod (List.map_congr_left fun n _ => (value_num m n).symm))

end

theorem everywhere_number {p : Expr → Prop} {es : List Expr} (h : ∀ e ∈ es, e.Everywhere p)
    {n : Number} (hn : n ∈ es.filterMap number?) : p (.num n) := by
  obtain ⟨e, he, hnumber⟩ := List.mem_filterMap.1 hn
  cases e with
  | num k =>
    cases hnumber
    exact (h _ he).here
  | _ => cases hnumber

/-- With every symbol one, a product in which nothing is left to do is not zero. -/
theorem one_le_value {e : Expr} (he : e.Everywhere Plain) (h : e.Everywhere Factored) :
    1 ≤ e.value (.integers fun _ => 1) := by
  rw [← (tight_of_factored he h).magnitude]
  exact_mod_cast one_le_magnitude he

end Expr

/-! ### Coefficients -/

namespace Number

theorem one_le_prod {ns : List Number} (h : ∀ n ∈ ns, 1 ≤ n.toInt) : 1 ≤ (ns.map toInt).prod := by
  induction ns with
  | nil => exact le_refl 1
  | cons n ns ih =>
    rw [List.map_cons, List.prod_cons]
    obtain ⟨hn, hns⟩ := List.forall_mem_cons.1 h
    have := Int.mul_le_mul hn (ih hns) Int.one_nonneg (by omega)
    omega

theorem natural_foldl_mul {total : Number} (htotal : total.Natural) {ns : List Number}
    (h : ∀ n ∈ ns, n.Natural) (hpos : ∀ n ∈ ns, 1 ≤ n.toInt)
    (hbound : total.toInt * (ns.map toInt).prod < 2 ^ 63) :
    (ns.foldl (· * ·) total).Natural ∧
      (ns.foldl (· * ·) total).toInt = total.toInt * (ns.map toInt).prod := by
  induction ns generalizing total with
  | nil => exact ⟨htotal, by simp⟩
  | cons n ns ih =>
    obtain ⟨hn, hns⟩ := List.forall_mem_cons.1 h
    obtain ⟨-, hns_pos⟩ := List.forall_mem_cons.1 hpos
    rw [List.map_cons, List.prod_cons, ← Int.mul_assoc] at hbound ⊢
    have hnonneg := Int.mul_nonneg htotal.toInt_nonneg hn.toInt_nonneg
    have hle : total.toInt * n.toInt ≤ total.toInt * n.toInt * (ns.map toInt).prod :=
      le_mul_of_one_le_right hnonneg (one_le_prod hns_pos)
    obtain ⟨hmul, hvalue⟩ := htotal.mul hn (by omega)
    obtain ⟨hnatural, hprod⟩ := ih hmul hns hns_pos (by rw [hvalue]; exact hbound)
    exact ⟨hnatural, by rw [List.foldl_cons, hprod, hvalue]⟩

end Number

namespace Expr

/-- A natural number that is a factor of a product in which nothing is left to do. -/
theorem one_le_of_factored {n : Number} (hn : n.Natural) (h : Factored (.num n)) :
    1 ≤ n.toInt := by
  have hne : n.toInt ≠ 0 := h
  have := hn.toInt_nonneg
  omega

/-- The coefficient of a product is the product of its numbers. -/
theorem numericFactor_eq {factors : List Expr} (hplain : ∀ f ∈ factors, f.Everywhere Plain)
    (h : ∀ f ∈ factors, f.Everywhere Factored)
    (hbound : (factors.map (value (.integers fun _ => 1))).prod < 2 ^ 63) :
    (numericFactor factors).Natural ∧
      (numericFactor factors).toInt = ((factors.filterMap number?).map Number.toInt).prod := by
  have hnatural : ∀ n ∈ factors.filterMap number?, n.Natural := fun n hn =>
    everywhere_number hplain hn
  have hpos : ∀ n ∈ factors.filterMap number?, 1 ≤ n.toInt := fun n hn =>
    one_le_of_factored (hnatural n hn) (everywhere_number h hn)
  have hothers : 1 ≤ ((factors.filter (!·.isNumber)).map (value (.integers fun _ => 1))).prod := by
    have hplain' : (prod (factors.filter (!·.isNumber))).Everywhere Plain :=
      .prod trivial fun f hf => hplain f (List.mem_of_mem_filter hf)
    have htight : (prod (factors.filter (!·.isNumber))).Tight := tight_prod fun f hf =>
      tight_of_factored (hplain f (List.mem_of_mem_filter hf)) (h f (List.mem_of_mem_filter hf))
    have hone := one_le_magnitude hplain'
    rw [← value_prod, ← htight.magnitude]
    exact_mod_cast hone
  have hle := le_mul_of_one_le_right (Int.one_nonneg.trans (Number.one_le_prod hpos)) hothers
  have hsplit := prod_numbers (.integers fun _ => 1) factors
  change ((factors.filterMap number?).map Number.toInt).prod * _ = _ at hsplit
  have hone : (1 : Number).toInt = 1 := by decide
  have hfold := Number.natural_foldl_mul (show Number.Natural 1 by decide) hnatural hpos
    (by rw [hone, Int.one_mul]; omega)
  rw [hone, Int.one_mul] at hfold
  exact hfold

end Expr

namespace Simplify

open Workings.Expr (value Term Monomial Settled)

/-! ### Opened sums -/

theorem everywhere_openTerms {p : Expr → Prop} {terms : List Expr}
    (h : ∀ t ∈ terms, t.Everywhere p) : ∀ t ∈ openTerms terms, t.Everywhere p := by
  fun_induction openTerms terms with
  | case1 => exact h
  | case2 inner rest ih =>
    obtain ⟨hinner, hrest⟩ := List.forall_mem_cons.1 h
    intro t ht
    rcases List.mem_append.1 ht with ht | ht
    · exact hinner.terms t ht
    · exact ih hrest t ht
  | case3 factor rest ih =>
    obtain ⟨hfactor, hrest⟩ := List.forall_mem_cons.1 h
    exact List.forall_mem_cons.2 ⟨hfactor.factors factor (by simp), ih hrest⟩
  | case4 term rest _ _ ih =>
    obtain ⟨hterm, hrest⟩ := List.forall_mem_cons.1 h
    exact List.forall_mem_cons.2 ⟨hterm, ih hrest⟩

theorem sum_openTerms {R : Type*} [CommSemiring R] (m : Meaning R) (terms : List Expr) :
    ((openTerms terms).map (value m)).sum = (terms.map (value m)).sum := by
  fun_induction openTerms terms with
  | case1 => rfl
  | case2 inner rest ih =>
    rw [List.map_append, List.sum_append, ih, List.map_cons, List.sum_cons, Expr.value_sum]
  | case3 factor rest ih =>
    rw [List.map_cons, List.sum_cons, ih, List.map_cons, List.sum_cons, Expr.value_prod]
    simp
  | case4 term rest _ _ ih => rw [List.map_cons, List.sum_cons, ih, List.map_cons, List.sum_cons]

theorem openTerms_ne_nil {terms : List Expr} (h : ∀ t ∈ terms, t.Everywhere Plain)
    (hne : terms ≠ []) : openTerms terms ≠ [] := by
  fun_cases openTerms terms with
  | case1 => exact hne
  | case2 inner rest =>
    have hinner : inner ≠ [] := (h (.sum inner) (by simp)).here
    simp [hinner]
  | case3 | case4 => exact List.cons_ne_nil _ _

/-- Opening sums of terms leaves terms. -/
theorem term_openTerms {terms : List Expr} (h : ∀ t ∈ terms, t.Settled) :
    ∀ t ∈ openTerms terms, t.Term := by
  fun_induction openTerms terms with
  | case1 => exact fun _ hmem => nomatch hmem
  | case2 inner rest ih =>
    obtain ⟨hinner, hrest⟩ := List.forall_mem_cons.1 h
    intro t ht
    rcases List.mem_append.1 ht with ht | ht
    · cases hinner with
      | sum hterms => exact hterms t ht
      | term hterm =>
        rcases hterm with hnumber | hmonomial
        · cases hnumber
        · exact hmonomial.factored.here.elim
    · exact ih hrest t ht
  | case3 factor rest ih =>
    cases h (.prod [factor]) (by simp) with
    | term hterm =>
      rcases hterm with hnumber | hmonomial
      · cases hnumber
      · have hlength : 2 ≤ [factor].length := hmonomial.factored.here
        simp at hlength
  | case4 term rest hsum _ ih =>
    obtain ⟨hterm, hrest⟩ := List.forall_mem_cons.1 h
    refine List.forall_mem_cons.2 ⟨?_, ih hrest⟩
    cases hterm with
    | term hterm => exact hterm
    | sum _ => exact (hsum _ rfl).elim

/-! ### Like terms -/

/-- A coefficient and a product with nothing left to do, which together are no small number. -/
structure Group (group : Number × Expr) : Prop where
  coefficient : group.1.Natural
  plain : group.2.Everywhere Plain
  factored : group.2.Everywhere Factored
  large : 10 ≤ group.1.toInt * group.2.value (.integers fun _ => 10)

/-- The value of groups of terms. -/
def groupsValue (symbols : String → ℤ) (groups : List (Number × Expr)) : ℤ :=
  (groups.map fun group => group.1.toInt * group.2.value (.integers symbols)).sum

theorem groupsValue_cons (symbols : String → ℤ) (group : Number × Expr)
    (groups : List (Number × Expr)) :
    groupsValue symbols (group :: groups) =
      group.1.toInt * group.2.value (.integers symbols) + groupsValue symbols groups := by
  unfold groupsValue
  rw [List.map_cons, List.sum_cons]

theorem Group.value_nonneg {group : Number × Expr} (h : Group group) :
    0 ≤ group.1.toInt * group.2.value (.integers fun _ => 1) :=
  Int.mul_nonneg h.coefficient.toInt_nonneg (Int.one_nonneg.trans (Expr.one_le_value h.plain h.factored))

theorem groupsValue_nonneg {groups : List (Number × Expr)} (h : ∀ group ∈ groups, Group group) :
    0 ≤ groupsValue (fun _ => 1) groups := by
  refine List.sum_nonneg fun a ha => ?_
  obtain ⟨group, hgroup, rfl⟩ := List.mem_map.1 ha
  exact (h group hgroup).value_nonneg

/-- Groups of the same part are combined by adding their coefficients. -/
theorem Group.add {total coefficient : Number} {part : Expr} (htotal : Group (total, part))
    (h : Group (coefficient, part))
    (hbound : (total.toInt + coefficient.toInt) * part.value (.integers fun _ => 1) < 2 ^ 63) :
    Group (total + coefficient, part) ∧
      (total + coefficient).toInt = total.toInt + coefficient.toInt := by
  have hnonneg := Int.add_nonneg htotal.coefficient.toInt_nonneg h.coefficient.toInt_nonneg
  have hle := le_mul_of_one_le_right hnonneg (Expr.one_le_value h.plain h.factored)
  obtain ⟨hnatural, hvalue⟩ := htotal.coefficient.add h.coefficient (lt_of_le_of_lt hle hbound)
  refine ⟨⟨hnatural, h.plain, h.factored, ?_⟩, hvalue⟩
  have hlarge := htotal.large
  have hlarge' := h.large
  dsimp only at hvalue hlarge hlarge' ⊢
  rw [hvalue, Int.add_mul]
  omega

theorem addToGroup_eq {coefficient : Number} {part : Expr} (h : Group (coefficient, part))
    {groups : List (Number × Expr)} (hgroups : ∀ group ∈ groups, Group group)
    (hbound : groupsValue (fun _ => 1) groups +
      coefficient.toInt * part.value (.integers fun _ => 1) < 2 ^ 63) :
    (∀ group ∈ addToGroup coefficient part groups, Group group) ∧
      ∀ symbols, groupsValue symbols (addToGroup coefficient part groups) =
        groupsValue symbols groups + coefficient.toInt * part.value (.integers symbols) := by
  induction groups with
  | nil => exact ⟨by simpa [addToGroup] using h, fun symbols => by simp [addToGroup, groupsValue]⟩
  | cons group rest ih =>
    obtain ⟨total, existing⟩ := group
    obtain ⟨hgroup, hrest⟩ := List.forall_mem_cons.1 hgroups
    have hrest_nonneg := groupsValue_nonneg hrest
    have hgroup_nonneg := hgroup.value_nonneg
    rw [groupsValue_cons] at hbound
    dsimp only at hbound hgroup_nonneg
    unfold addToGroup
    split
    · rename_i hsame
      have heq : existing = part :=
        Expr.eq_of_beq (hgroup.plain.mono Expr.Plain.regular) (h.plain.mono Expr.Plain.regular) hsame
      subst heq
      obtain ⟨hadd, hvalue⟩ := hgroup.add h (by rw [Int.add_mul]; omega)
      refine ⟨List.forall_mem_cons.2 ⟨hadd, hrest⟩, fun symbols => ?_⟩
      rw [groupsValue_cons, groupsValue_cons, hvalue, Int.add_mul]
      ac_rfl
    · obtain ⟨hall, hvalue⟩ := ih hrest (by omega)
      refine ⟨List.forall_mem_cons.2 ⟨hgroup, hall⟩, fun symbols => ?_⟩
      rw [groupsValue_cons, groupsValue_cons, hvalue, Int.add_assoc]

theorem variablePart_prod (factors : List Expr) :
    (Expr.prod factors).variablePart?.getD 1 = Expr.prodOf (factors.filter (!·.isNumber)) := by
  rw [Expr.variablePart?]
  generalize factors.filter (!·.isNumber) = vars
  rcases vars with _ | ⟨first, _ | ⟨second, rest⟩⟩
  · rfl
  · rfl
  · rfl

/-- What a term adds to the groups. -/
theorem group_of_monomial {e : Expr} (he : e.Everywhere Plain) (h : e.Monomial)
    (hbound : e.value (.integers fun _ => 1) < 2 ^ 63) :
    Group (e.coefficient, e.variablePart?.getD 1) ∧
      ∀ symbols, e.coefficient.toInt * (e.variablePart?.getD 1).value (.integers symbols) =
        e.value (.integers symbols) := by
  cases e with
  | num n => cases h.number
  | sum _ => exact h.factored.here.elim
  | prod factors =>
    rw [Expr.value_prod] at hbound
    obtain ⟨hnatural, hcoefficient⟩ :=
      Expr.numericFactor_eq he.factors h.factored.factors hbound
    rw [variablePart_prod, Expr.coefficient]
    have hvalue : ∀ symbols, (Expr.numericFactor factors).toInt *
        (Expr.prodOf (factors.filter (!·.isNumber))).value (.integers symbols) =
          (Expr.prod factors).value (.integers symbols) := by
      intro symbols
      rw [hcoefficient, Expr.value_prodOf rfl, Expr.value_prod]
      exact Expr.prod_numbers (.integers symbols) factors
    refine ⟨⟨hnatural, ?_, ?_, (hvalue _).symm ▸ h.large⟩, hvalue⟩
    · exact Expr.plain_prodOf fun f hf => he.factors f (List.mem_of_mem_filter hf)
    · exact Expr.factored_prodOf fun f hf => h.factored.factors f (List.mem_of_mem_filter hf)
  | sym _ | pow _ _ | call _ _ _ _ | deriv _ _ | integral _ _ _ _ =>
    have hvalue : ∀ n : ℤ, Number.toInt 1 * n = n := Int.one_mul
    refine ⟨⟨show Number.Natural 1 by decide, he, h.factored, ?_⟩, fun symbols => hvalue _⟩
    exact (hvalue _).symm ▸ h.large

/-- The groups with one more term. -/
def addTerm (groups : List (Number × Expr)) (term : Expr) : List (Number × Expr) :=
  match term.variablePart? with
  | none => groups ++ [(term.coefficient, 1)]
  | some part => addToGroup term.coefficient part groups

theorem addTerm_eq {term : Expr} {groups : List (Number × Expr)} (hplain : term.Everywhere Plain)
    (h : term.Monomial) (hgroups : ∀ group ∈ groups, Group group)
    (hbound : groupsValue (fun _ => 1) groups + term.value (.integers fun _ => 1) < 2 ^ 63) :
    (∀ group ∈ addTerm groups term, Group group) ∧ ∀ symbols,
      groupsValue symbols (addTerm groups term) =
        groupsValue symbols groups + term.value (.integers symbols) := by
  have hnonneg := groupsValue_nonneg hgroups
  obtain ⟨hgroup, hvalue⟩ := group_of_monomial hplain h (by omega)
  unfold addTerm
  cases hpart : term.variablePart? with
  | none =>
    rw [hpart, Option.getD_none] at hgroup hvalue
    refine ⟨fun group hmem => ?_, fun symbols => ?_⟩
    · rcases List.mem_append.1 hmem with hmem | hmem
      · exact hgroups group hmem
      · rw [List.mem_singleton.1 hmem]
        exact hgroup
    · rw [← hvalue symbols]
      simp [groupsValue]
  | some part =>
    rw [hpart, Option.getD_some] at hgroup hvalue
    obtain ⟨hall, hsum⟩ := addToGroup_eq hgroup hgroups (by rw [hvalue]; exact hbound)
    exact ⟨hall, fun symbols => by rw [hsum, hvalue]⟩

theorem foldl_addTerm_eq {terms : List Expr} {groups : List (Number × Expr)}
    (hplain : ∀ t ∈ terms, t.Everywhere Plain) (h : ∀ t ∈ terms, t.Monomial)
    (hgroups : ∀ group ∈ groups, Group group)
    (hbound : groupsValue (fun _ => 1) groups +
      (terms.map (value (.integers fun _ => 1))).sum < 2 ^ 63) :
    (∀ group ∈ terms.foldl addTerm groups, Group group) ∧ ∀ symbols,
      groupsValue symbols (terms.foldl addTerm groups) =
        groupsValue symbols groups + (terms.map (value (.integers symbols))).sum := by
  induction terms generalizing groups with
  | nil => exact ⟨hgroups, fun symbols => by simp⟩
  | cons term terms ih =>
    obtain ⟨hterm, hterms⟩ := List.forall_mem_cons.1 hplain
    obtain ⟨hmonomial, hmonomials⟩ := List.forall_mem_cons.1 h
    rw [List.map_cons, List.sum_cons] at hbound
    have hterms_nonneg : 0 ≤ (terms.map (value (.integers fun _ => 1))).sum :=
      (Expr.sum_between fun t ht => Expr.value_le_magnitude (hterms t ht)).1
    obtain ⟨hall, hsum⟩ := addTerm_eq hterm hmonomial hgroups (by omega)
    obtain ⟨hresult, hresult_sum⟩ := ih hterms hmonomials hall (by rw [hsum]; omega)
    refine ⟨hresult, fun symbols => ?_⟩
    rw [List.foldl_cons, hresult_sum, hsum, List.map_cons, List.sum_cons, Int.add_assoc]

/-- The term of a group. -/
theorem Group.buildProd_eq {coefficient : Number} {part : Expr} (h : Group (coefficient, part)) :
    (Expr.buildProd [.num coefficient, part]).Everywhere Plain ∧
      (Expr.buildProd [.num coefficient, part]).Everywhere Factored ∧
      (Expr.buildProd [.num coefficient, part]).Term ∧
      ∀ symbols, (Expr.buildProd [.num coefficient, part]).value (.integers symbols) =
        coefficient.toInt * part.value (.integers symbols) := by
  have hplain : ∀ f ∈ [.num coefficient, part], f.Everywhere Plain := by
    simp [h.plain, Everywhere.num (p := Plain) h.coefficient]
  have hfactored : ∀ f ∈ [.num coefficient, part], f.Everywhere Factored := by
    have hne : coefficient.toInt ≠ 0 := by
      intro hzero
      have hlarge := h.large
      dsimp only at hlarge
      rw [hzero, Int.zero_mul] at hlarge
      omega
    simp [h.factored, Everywhere.num (p := Factored) hne]
  have hvalue : ∀ symbols, (Expr.buildProd [.num coefficient, part]).value (.integers symbols) =
      coefficient.toInt * part.value (.integers symbols) := by
    intro symbols
    rw [Expr.value_buildProd_integers hplain]
    simp [Meaning.integers]
  refine ⟨Expr.plain_buildProd hplain, Expr.factored_buildProd hplain hfactored, ?_, hvalue⟩
  by_cases hnumber : (Expr.buildProd [.num coefficient, part]).isNumber = true
  · exact .inl hnumber
  · refine .inr ⟨Expr.factored_buildProd hplain hfactored, Bool.eq_false_iff.2 hnumber, ?_⟩
    rw [hvalue]
    exact h.large

/-- Combining like terms keeps the value of the sum and leaves terms with nothing to do. -/
theorem combineLikeTerms_eq {terms : List Expr} (hplain : ∀ t ∈ terms, t.Everywhere Plain)
    (h : ∀ t ∈ terms, t.Monomial)
    (hbound : (terms.map (value (.integers fun _ => 1))).sum < 2 ^ 63) :
    (∀ t ∈ combineLikeTerms terms, t.Everywhere Plain ∧ t.Everywhere Factored ∧ t.Term) ∧
      ∀ symbols, ((combineLikeTerms terms).map (value (.integers symbols))).sum =
        (terms.map (value (.integers symbols))).sum := by
  have hnil : ∀ group ∈ ([] : List (Number × Expr)), Group group := fun _ hmem => nomatch hmem
  obtain ⟨hgroups, hsum⟩ := foldl_addTerm_eq hplain h hnil (by simpa [groupsValue] using hbound)
  have hfilter : (groupTerms terms).filter (fun group => !group.1.isZero) = groupTerms terms := by
    refine List.filter_eq_self.2 fun group hgroup => ?_
    rw [Bool.not_eq_true', Bool.eq_false_iff]
    intro hzero
    have hlarge := (hgroups group hgroup).large
    rw [(hgroups group hgroup).coefficient.whole.isZero_iff.1 hzero, Int.zero_mul] at hlarge
    omega
  unfold combineLikeTerms
  rw [hfilter]
  refine ⟨fun t ht => ?_, fun symbols => ?_⟩
  · obtain ⟨⟨coefficient, part⟩, hgroup, rfl⟩ := List.mem_map.1 ht
    obtain ⟨hplain, hfactored, hterm, -⟩ := (hgroups _ hgroup).buildProd_eq
    exact ⟨hplain, hfactored, hterm⟩
  · have hvalue : (groupTerms terms).map (value (.integers symbols) ∘ fun group =>
        Expr.buildProd [.num group.1, group.2]) =
        (groupTerms terms).map fun group => group.1.toInt * group.2.value (.integers symbols) :=
      List.map_congr_left fun group hgroup => (hgroups group hgroup).buildProd_eq.2.2.2 symbols
    rw [List.map_map]
    refine (congrArg List.sum hvalue).trans ((hsum symbols).trans ?_)
    simp [groupsValue]

/-! ### Factors -/

theorem perm_settle (item : Expr) (items : List Expr) :
    (Expr.settle item items).Perm (item :: items) := by
  induction items with
  | nil => exact .refl _
  | cons last before ih =>
    unfold Expr.settle
    split
    · exact (ih.cons last).trans (.swap item last before)
    · exact .refl _

theorem perm_canonicalSort (items : List Expr) : (Expr.canonicalSort items).Perm items := by
  have hfold (sorted : List Expr) :
      (items.foldl (fun sorted item => Expr.settle item sorted) sorted).Perm (items ++ sorted) := by
    induction items generalizing sorted with
    | nil => exact .refl _
    | cons item items ih =>
      refine (ih (Expr.settle item sorted)).trans ?_
      exact ((perm_settle item sorted).append_left items).trans List.perm_middle
  refine (List.reverse_perm _).trans ?_
  simpa using hfold []

theorem perm_firstSum? {factors terms others : List Expr}
    (h : firstSum? factors = some (terms, others)) : factors.Perm (.sum terms :: others) := by
  induction factors generalizing others with
  | nil => cases h
  | cons factor rest ih =>
    have hother (hcons : (firstSum? rest).map (fun found => (found.1, factor :: found.2)) =
        some (terms, others)) : (factor :: rest).Perm (.sum terms :: others) := by
      obtain ⟨⟨terms', others'⟩, hrest, heq⟩ := Option.map_eq_some_iff.1 hcons
      cases heq
      exact ((ih hrest).cons factor).trans (.swap _ _ _)
    cases factor with
    | sum inner =>
      cases h
      exact .refl _
    | _ => exact hother h

theorem firstSum?_eq_none {factors : List Expr} (h : firstSum? factors = none) :
    ∀ f ∈ factors, f.isSum = false := by
  induction factors with
  | nil => exact fun _ hmem => nomatch hmem
  | cons factor rest ih =>
    cases factor with
    | sum inner => cases h
    | _ => exact List.forall_mem_cons.2 ⟨rfl, ih (Option.map_eq_none_iff.1 h)⟩

/-- Distributing a product over a sum. -/
theorem reduces_distributed {factors terms others : List Expr}
    (hplain : ∀ f ∈ factors, f.Everywhere Plain) (hperm : factors.Perm (.sum terms :: others)) :
    (Expr.prod factors).Reduces
      (.sum (terms.map fun term => Expr.buildProd (others ++ [term]))) := by
  have hsum : (Expr.sum terms).Everywhere Plain := hplain _ (hperm.mem_iff.2 (by simp))
  have hothers : ∀ f ∈ others, f.Everywhere Plain := fun f hf =>
    hplain f (hperm.mem_iff.2 (by simp [hf]))
  have heach : ∀ term ∈ terms, ∀ f ∈ others ++ [term], f.Everywhere Plain := by
    intro term hterm f hf
    rcases List.mem_append.1 hf with hf | hf
    · exact hothers f hf
    · rw [List.mem_singleton.1 hf]
      exact hsum.terms term hterm
  refine .of_replaceable (Expr.replaceable_of_not_number rfl) (.sum ?_ ?_) (fun symbols => ?_)
    fun w hw => ?_
  · have hne : terms ≠ [] := hsum.here
    show terms.map _ ≠ []
    simpa using hne
  · intro t ht
    obtain ⟨term, hterm, rfl⟩ := List.mem_map.1 ht
    exact Expr.plain_buildProd (heach term hterm)
  · rw [Expr.value_prod, (hperm.map _).prod_eq, List.map_cons, List.prod_cons, Expr.value_sum,
      Expr.value_sum, List.map_map, mul_comm, ← List.sum_map_mul_left]
    refine congrArg List.sum (List.map_congr_left fun term hterm => ?_)
    show (Expr.buildProd (others ++ [term])).value _ = _
    rw [Expr.value_buildProd_integers (heach term hterm), List.map_append, List.prod_append]
    simp
  · rw [Expr.bulk_prod, (hperm.map _).prod_eq, List.map_cons, List.prod_cons,
      Expr.bulk_sum, Expr.bulk_sum, List.map_map, mul_comm, ← List.sum_map_mul_left]
    refine List.sum_le_sum fun term hterm => ?_
    refine (Expr.bulk_buildProd_le hw (heach term hterm)).trans (le_of_eq ?_)
    rw [List.map_append, List.prod_append]
    simp

theorem length_le_flatFactors {factors : List Expr} (h : ∀ f ∈ factors, f.Everywhere Factored)
    (hone : ∀ f ∈ factors, f.isValue 1 = false) :
    factors.length ≤ (Expr.flatFactors factors).length := by
  fun_induction Expr.flatFactors factors with
  | case1 => exact le_refl _
  | case2 inner rest ih =>
    obtain ⟨hinner, hrest⟩ := List.forall_mem_cons.1 h
    have hlength : 2 ≤ inner.length := hinner.here
    have := ih hrest (List.forall_mem_cons.1 hone).2
    rw [List.length_cons, List.length_append]
    omega
  | case3 factor rest _ hvalue =>
    rw [hone factor (by simp)] at hvalue
    cases hvalue
  | case4 factor rest _ _ ih =>
    obtain ⟨-, hrest⟩ := List.forall_mem_cons.1 h
    have := ih hrest (List.forall_mem_cons.1 hone).2
    rw [List.length_cons, List.length_cons]
    omega

/-- The normalized product of two factors or more that are worked out. -/
theorem monomial_buildProd {factors : List Expr} (hplain : ∀ f ∈ factors, f.Everywhere Plain)
    (h : ∀ f ∈ factors, f.Everywhere Factored) (hone : ∀ f ∈ factors, f.isValue 1 = false)
    (hlength : 2 ≤ factors.length)
    (hlarge : 10 ≤ (factors.map (value (.integers fun _ => 10))).prod) :
    (Expr.buildProd factors).Monomial where
  factored := Expr.factored_buildProd hplain h
  large := by
    rw [Expr.value_buildProd_integers hplain]
    exact hlarge
  number := by
    have hflat := hlength.trans (length_le_flatFactors h hone)
    unfold Expr.buildProd
    dsimp only
    split
    · rename_i hzero
      obtain ⟨f, hf, hvalue⟩ := List.any_eq_true.1 hzero
      rw [Expr.not_zero_of_factored (Expr.everywhere_flatFactors h f hf)
        (Expr.everywhere_flatFactors hplain f hf)] at hvalue
      cases hvalue
    · match hfactors : Expr.flatFactors factors with
      | [] | [_] => simp [hfactors] at hflat
      | _ :: _ :: _ => rfl

theorem ten_le_prod {factors : List Expr} (hne : factors ≠ []) (h : ∀ f ∈ factors, f.Monomial) :
    10 ≤ (factors.map (value (.integers fun _ => 10))).prod := by
  have hone : ∀ fs : List Expr, (∀ f ∈ fs, f.Monomial) →
      1 ≤ (fs.map (value (.integers fun _ => 10))).prod := by
    intro fs hfs
    induction fs with
    | nil => exact le_refl 1
    | cons f fs ih =>
      obtain ⟨hf, hrest⟩ := List.forall_mem_cons.1 hfs
      rw [List.map_cons, List.prod_cons]
      exact one_le_mul_of_one_le_of_one_le (by have := hf.large; omega) (ih hrest)
  obtain ⟨f, rest, rfl⟩ := List.exists_cons_of_ne_nil hne
  obtain ⟨hf, hrest⟩ := List.forall_mem_cons.1 h
  rw [List.map_cons, List.prod_cons]
  exact hf.large.trans (le_mul_of_one_le_right (by have := hf.large; omega) (hone rest hrest))

end Simplify

end Workings

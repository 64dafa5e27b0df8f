import Workings.Proofs.Simplifying

/-!
# Simplifying products and powers of ten

A product of simplified factors is distributed over the first sum among them, or its numbers are
multiplied (`reaches_product`). A power of ten that long multiplication left in a tree is worked out or
kept (`reaches_power`). With these every shape is simplified faithfully, to any depth
(`faithful_simplifyAt`).
-/

namespace Workings

open Workings.Expr (Everywhere Plain Factored Term Monomial Settled)
open Work (Meets Reaches)

namespace Simplify

variable {total : Prop} {s : Sheet} {simplify : ℕ → Simplifier}

/-! ### Products -/

theorem size_mul_le {a b r : Number} (h : r.toInt = a.toInt * b.toInt) :
    r.size ≤ a.size * b.size := by
  have hpos : 1 ≤ a.size * b.size := Nat.mul_pos (le_max_left 1 _) (le_max_left 1 _)
  refine max_le hpos ?_
  rw [h, Int.natAbs_mul]
  exact Nat.mul_le_mul (le_max_right _ _) (le_max_right _ _)

theorem meets_multiplyAll {total : Number} {ns : List Number} (htotal : total.Natural)
    (hns : ∀ n ∈ ns, n.Natural) (hbound : total.size * (ns.map Number.size).prod < 2 ^ 63) :
    Meets .reduction s (multiplyAll (.num total) ns) fun result => ∃ r : Number,
      result = (.num r, []) ∧ r.Natural ∧ r.toInt = total.toInt * (ns.map Number.toInt).prod := by
  induction ns generalizing s total with
  | nil => exact .pure ⟨total, rfl, htotal, by simp⟩
  | cons n ns ih =>
    obtain ⟨hn, hrest⟩ := List.forall_mem_cons.1 hns
    rw [List.map_cons, List.prod_cons, ← Nat.mul_assoc] at hbound
    rw [List.map_cons, List.prod_cons, ← Int.mul_assoc]
    have hpos : 1 ≤ (ns.map Number.size).prod := by
      refine List.one_le_prod_of_one_le fun a ha => ?_
      obtain ⟨n, -, rfl⟩ := List.mem_map.1 ha
      exact le_max_left 1 _
    unfold multiplyAll
    refine (meets_multiply true htotal hn ?_).bind fun e t _ he => ?_
    · exact lt_of_le_of_lt (Nat.le_mul_of_pos_right _ hpos) hbound
    obtain ⟨r, rfl, hr, hvalue⟩ := he
    rw [← hvalue]
    exact ih hr hrest (lt_of_le_of_lt (Nat.mul_le_mul_right _ (size_mul_le hvalue)) hbound)

/-- A product whose numbers were taken apart from its other factors. -/
structure Split (current : Expr) (numbers : List Number) (others : List Expr) : Prop where
  plain : current.Everywhere Plain
  value : ∀ symbols, current.value (.integers symbols) =
    (numbers.map Number.toInt).prod * (others.map (Expr.value (.integers symbols))).prod
  magnitude : (numbers.map Number.size).prod ≤ current.magnitude
  numbers : ∀ n ∈ numbers, n.Natural ∧ 2 ≤ n.toInt
  others_plain : ∀ f ∈ others, f.Everywhere Plain
  others : ∀ f ∈ others, f.Monomial

theorem meets_multiplyInBlock {current : Expr} {numbers : List Number} {others : List Expr}
    (h : Split current numbers others) (hne : numbers ≠ []) (hbound : current.magnitude < 2 ^ 63) :
    Meets .reduction s (Work.withBlock [current] fun id => do
      let (result, leftover) ← multiplyAll ((numbers.head?.map Expr.num).getD 1) numbers.tail
      return (result, leftover, ((← get).blockItem? id 0).getD current))
      fun outcome => ∃ (r : Number) (inTree : Expr), outcome = (.num r, [], inTree) ∧ r.Natural ∧
        r.toInt = (numbers.map Number.toInt).prod ∧ current.Reduces inTree := by
  obtain ⟨first, rest, rfl⟩ := List.exists_cons_of_ne_nil hne
  have hnatural : ∀ n ∈ first :: rest, n.Natural := fun n hn => (h.numbers n hn).1
  obtain ⟨hfirst, hrest⟩ := List.forall_mem_cons.1 hnatural
  refine Work.meets_withBlock ?_
  refine (meets_multiplyAll hfirst hrest (lt_of_le_of_lt h.magnitude hbound)).bind
    fun result t hfollows hresult => ?_
  obtain ⟨r, rfl, hr, hvalue⟩ := hresult
  refine .look fun _ => ?_
  obtain ⟨inTree, hitem, hrel⟩ := blockItem_append hfollows
  rw [hitem]
  exact .pure ⟨r, inTree, rfl, hr, hvalue, hrel h.plain⟩

theorem two_le_prod {ns : List Number} (hne : ns ≠ []) (h : ∀ n ∈ ns, 2 ≤ n.toInt) :
    2 ≤ (ns.map Number.toInt).prod := by
  obtain ⟨n, rest, rfl⟩ := List.exists_cons_of_ne_nil hne
  obtain ⟨hn, hrest⟩ := List.forall_mem_cons.1 h
  have hone := Number.one_le_prod fun m hm => show 1 ≤ m.toInt by have := hrest m hm; omega
  rw [List.map_cons, List.prod_cons]
  exact hn.trans (le_mul_of_one_le_right (by omega) hone)

theorem isValue_eq_false {e : Expr} (h : e.isNumber = false) (n : Number) :
    e.isValue n = false := by
  cases e with
  | num _ => cases h
  | _ => rfl

theorem isValue_one_eq_false {n : Number} (hn : n.Natural) (h : 2 ≤ n.toInt) :
    (Expr.num n).isValue 1 = false := by
  rw [Bool.eq_false_iff]
  intro hvalue
  cases Expr.eq_one_of_isValue (.num hn.whole) hvalue
  exact absurd h (by decide)

/-- The normalized product of numbers and other factors. -/
theorem Split.buildProd_eq {current : Expr} {numbers : List Number} {others : List Expr}
    (h : Split current numbers others) {front : List Number}
    (hfront : ∀ n ∈ front, n.Natural ∧ 2 ≤ n.toInt)
    (hprod : (front.map Number.toInt).prod = (numbers.map Number.toInt).prod) (hne : others ≠ [])
    (hlength : 2 ≤ front.length + others.length) :
    (Expr.buildProd (front.map .num ++ others)).Everywhere Plain ∧
      (Expr.buildProd (front.map .num ++ others)).Monomial ∧
      ∀ symbols, (Expr.buildProd (front.map .num ++ others)).value (.integers symbols) =
        current.value (.integers symbols) := by
  have hplain : ∀ f ∈ front.map Expr.num ++ others, f.Everywhere Plain := by
    intro f hf
    rcases List.mem_append.1 hf with hf | hf
    · obtain ⟨n, hn, rfl⟩ := List.mem_map.1 hf
      exact .num (hfront n hn).1
    · exact h.others_plain f hf
  have hfactored : ∀ f ∈ front.map Expr.num ++ others, f.Everywhere Factored := by
    intro f hf
    rcases List.mem_append.1 hf with hf | hf
    · obtain ⟨n, hn, rfl⟩ := List.mem_map.1 hf
      refine .num (show n.toInt ≠ 0 from fun hzero => ?_)
      have := (hfront n hn).2
      omega
    · exact (h.others f hf).factored
  have hone : ∀ f ∈ front.map Expr.num ++ others, f.isValue 1 = false := by
    intro f hf
    rcases List.mem_append.1 hf with hf | hf
    · obtain ⟨n, hn, rfl⟩ := List.mem_map.1 hf
      exact isValue_one_eq_false (hfront n hn).1 (hfront n hn).2
    · exact isValue_eq_false (h.others f hf).number 1
  have hvalue : ∀ symbols,
      ((front.map Expr.num ++ others).map (Expr.value (.integers symbols))).prod =
        current.value (.integers symbols) := by
    intro symbols
    rw [h.value, ← hprod, List.map_append, List.prod_append, List.map_map]
    exact congrArg (· * _) (congrArg List.prod (List.map_congr_left fun n _ => Expr.value_num _ n))
  refine ⟨Expr.plain_buildProd hplain, ?_, fun symbols => ?_⟩
  · refine monomial_buildProd hplain hfactored hone ?_ ?_
    · rw [List.length_append, List.length_map]
      exact hlength
    · have hnumbers := Number.one_le_prod fun n hn =>
        show 1 ≤ n.toInt by have := (hfront n hn).2; omega
      rw [hvalue, h.value, ← hprod]
      exact (ten_le_prod hne h.others).trans
        (le_mul_of_one_le_left (by have := ten_le_prod hne h.others; omega) hnumbers)
  · rw [Expr.value_buildProd_integers hplain, hvalue]

/-- Multiplying the numbers of a product. -/
theorem meets_multiplyNumbers {current : Expr} {numbers : List Number} {others : List Expr}
    (h : Split current numbers others) (hne : numbers ≠ []) (hbound : current.magnitude < 2 ^ 63) :
    Meets .reduction s (multiplyNumbers current numbers others) current.Simplified := by
  unfold multiplyNumbers
  refine (meets_multiplyInBlock h hne hbound).bind fun outcome t _ houtcome => ?_
  obtain ⟨r, inTree, rfl, hr, hproduct, hinTree⟩ := houtcome
  have htwo := two_le_prod hne fun n hn => (h.numbers n hn).2
  refine .ite (fun hempty => ?_) fun hnonempty => ?_
  · have hnil : others = [] := by simpa using hempty
    refine .pure ⟨.to_num h.plain hr fun symbols => ?_, settled_num r⟩
    rw [h.value, hnil, hproduct]
    simp
  · have hothers : others ≠ [] := by simpa using hnonempty
    have hfront : ∀ n ∈ [r], n.Natural ∧ 2 ≤ n.toInt := by
      intro n hn
      rw [List.mem_singleton.1 hn, hproduct]
      exact ⟨hr, htwo⟩
    have hothers_length := List.length_pos_iff.2 hothers
    obtain ⟨hplain, hmonomial, hvalue⟩ :=
      h.buildProd_eq hfront (by simpa using hproduct) hothers (by simp; omega)
    -- A product of a number and something else is no number that could stand in a power of ten.
    have hreplaceable : inTree.Replaceable := by
      rintro n rfl
      have hten := ten_le_prod hothers h.others
      have hlarge := Int.mul_le_mul htwo hten (by decide) (by omega)
      rw [← h.value, ← hinTree.value] at hlarge
      change 2 * 10 ≤ n.toInt at hlarge
      omega
    have hreduces : inTree.Reduces (Expr.buildProd ([Expr.num r] ++ others)) := by
      refine .of_tight hinTree.plain hreplaceable hplain ?_ fun symbols => ?_
      · exact Expr.tight_of_factored hplain hmonomial.factored
      · rw [hinTree.value]
        exact hvalue symbols
    refine (meets_become hinTree.plain hreduces fun _ => hreplaceable).bind fun _ t _ _ => .pure ?_
    exact ⟨hinTree.trans hreduces, .term (.inr hmonomial)⟩

/-- Factors that are simplified, none of them `0` or `1`. -/
structure Kept (kept : List Expr) : Prop where
  plain : ∀ f ∈ kept, f.Everywhere Plain
  settled : ∀ f ∈ kept, f.Settled
  zero : ∀ f ∈ kept, f.isValue 0 = false
  one : ∀ f ∈ kept, f.isValue 1 = false

theorem Kept.two_le {kept : List Expr} (h : Kept kept) {n : Number} (hn : Expr.num n ∈ kept) :
    2 ≤ n.toInt := by
  have hnatural : n.Natural := (h.plain _ hn).here
  have hnonneg := hnatural.toInt_nonneg
  have hzero : n.toInt ≠ 0 := by
    intro hvalue
    have heq : n = 0 := hnatural.eq_of_toInt (show Number.Natural 0 by decide) hvalue
    have hfalse := h.zero _ hn
    rw [heq] at hfalse
    cases hfalse
  have hone : n.toInt ≠ 1 := by
    intro hvalue
    have heq : n = 1 := hnatural.eq_of_toInt (show Number.Natural 1 by decide) hvalue
    have hfalse := h.one _ hn
    rw [heq] at hfalse
    cases hfalse
  omega

/-- Without a sum among them, sorted factors are split into numbers and others. -/
theorem Kept.split {kept sorted : List Expr} (h : Kept kept)
    (hsum : ∀ f ∈ kept, f.isSum = false) (hperm : sorted.Perm kept) :
    Split (.prod kept) (sorted.filterMap Expr.number?) (sorted.filter (!·.isNumber)) := by
  have hplain : ∀ f ∈ sorted, f.Everywhere Plain := fun f hf => h.plain f (hperm.mem_iff.1 hf)
  have hterm : ∀ f ∈ sorted, f.Term := by
    intro f hf
    cases h.settled f (hperm.mem_iff.1 hf) with
    | term hterm => exact hterm
    | sum _ => cases hsum _ (hperm.mem_iff.1 hf)
  refine ⟨.prod trivial h.plain, fun symbols => ?_, ?_, fun n hn => ?_, fun f hf => ?_, ?_⟩
  · rw [Expr.value_prod, ← (hperm.map _).prod_eq]
    exact (Expr.prod_numbers (.integers symbols) sorted).symm
  · rw [← Expr.bulk_one, Expr.bulk_prod, ← (hperm.map _).prod_eq]
    refine le_trans (Nat.le_mul_of_pos_right _ ?_)
      (le_of_eq (Expr.prod_numbers (Meaning.bulks 1) sorted))
    have hothers : (Expr.prod (sorted.filter (!·.isNumber))).Everywhere Plain :=
      .prod trivial fun f hf => hplain f (List.mem_of_mem_filter hf)
    have hone := Expr.one_le_bulk le_rfl hothers
    rw [Expr.bulk_prod] at hone
    exact hone
  · obtain ⟨e, he, hnumber⟩ := List.mem_filterMap.1 hn
    cases e with
    | num k =>
      cases hnumber
      exact ⟨(hplain _ he).here, h.two_le (hperm.mem_iff.1 he)⟩
    | _ => cases hnumber
  · exact hplain f (List.mem_of_mem_filter hf)
  · exact forall_monomial hterm

/-- What a product becomes when it is distributed: a sum of terms that are smaller than the product. -/
structure Distributes (e : Expr) (items : List Expr) : Prop where
  reduces : e.Reduces (.sum items)
  smaller : ∀ item ∈ items, item.bulk 2 < e.bulk 2

theorem Distributes.of_reduces {a b : Expr} {items : List Expr} (h : Distributes b items)
    (hab : a.Reduces b) : Distributes a items :=
  ⟨hab.trans h.reduces, fun item hitem =>
    lt_of_lt_of_le (h.smaller item hitem) (hab.bulk 2 (by decide))⟩

theorem length_le_bulk {es : List Expr} (hplain : ∀ e ∈ es, e.Everywhere Plain) {w : ℕ}
    (hw : 1 ≤ w) : es.length ≤ (es.map (Expr.bulk w)).sum := by
  rw [← List.length_map (Expr.bulk w)]
  refine List.length_le_sum_of_one_le _ fun a ha => ?_
  obtain ⟨e, he, rfl⟩ := List.mem_map.1 ha
  exact Expr.one_le_bulk hw (hplain e he)

/-- A term of a sum is smaller than the sum, if it is not the only one. -/
theorem bulk_lt_sum {terms : List Expr} (hplain : ∀ t ∈ terms, t.Everywhere Plain)
    (htwo : 2 ≤ terms.length) {t : Expr} (ht : t ∈ terms) {w : ℕ} (hw : 1 ≤ w) :
    t.bulk w < (Expr.sum terms).bulk w := by
  obtain ⟨before, after, rfl⟩ := List.append_of_mem ht
  obtain ⟨hbefore, -, hafter⟩ :=
    (List.forall_mem_append.trans (and_congr_right' List.forall_mem_cons)).1 hplain
  have hbefore := length_le_bulk hbefore hw
  have hafter := length_le_bulk hafter hw
  rw [List.length_append, List.length_cons] at htwo
  rw [Expr.bulk_sum, List.map_append, List.sum_append, List.map_cons, List.sum_cons]
  omega

theorem distributes_of_perm {factors terms others : List Expr}
    (hplain : ∀ f ∈ factors, f.Everywhere Plain) (hperm : factors.Perm (.sum terms :: others))
    (htwo : 2 ≤ terms.length) :
    Distributes (.prod factors) (terms.map fun term => Expr.buildProd (others ++ [term])) := by
  refine ⟨reduces_distributed hplain hperm, fun item hitem => ?_⟩
  obtain ⟨term, hterm, rfl⟩ := List.mem_map.1 hitem
  have hsum : (Expr.sum terms).Everywhere Plain := hplain _ (hperm.mem_iff.2 (by simp))
  have hothers : ∀ f ∈ others, f.Everywhere Plain := fun f hf =>
    hplain f (hperm.mem_iff.2 (by simp [hf]))
  have heach : ∀ f ∈ others ++ [term], f.Everywhere Plain :=
    List.forall_mem_append.2 ⟨hothers, List.forall_mem_singleton.2 (hsum.terms term hterm)⟩
  have hpos := Expr.one_le_bulk (w := 2) (by decide) (.prod trivial hothers)
  rw [Expr.bulk_prod] at hpos
  calc (Expr.buildProd (others ++ [term])).bulk 2
      ≤ ((others ++ [term]).map (Expr.bulk 2)).prod := Expr.bulk_buildProd_le (by decide) heach
    _ = term.bulk 2 * (others.map (Expr.bulk 2)).prod := by
        rw [List.map_append, List.prod_append, List.map_singleton, List.prod_singleton, mul_comm]
    _ < (Expr.sum terms).bulk 2 * (others.map (Expr.bulk 2)).prod :=
        Nat.mul_lt_mul_of_pos_right (bulk_lt_sum hsum.terms htwo hterm (by decide)) hpos
    _ = (Expr.prod factors).bulk 2 := by
        rw [Expr.bulk_prod, (hperm.map _).prod_eq, List.map_cons, List.prod_cons]

theorem reaches_factors {kept : List Expr} (hkept : Kept kept) (hlength : 2 ≤ kept.length)
    (hbound : (Expr.prod kept).magnitude < 2 ^ 63)
    (h : ∀ items, Distributes (.prod kept) items → (Expr.sum items).Worked total simplify) :
    Reaches total .reduction s (fun d => factors (simplify d) (.prod kept) kept)
      (Expr.prod kept).Simplified := by
  have hplain : (Expr.prod kept).Everywhere Plain := .prod trivial hkept.plain
  unfold factors
  split
  · rename_i terms others hfirst
    have hperm := perm_firstSum? hfirst
    have htwo : 2 ≤ terms.length := by
      cases hkept.settled _ (hperm.mem_iff.2 List.mem_cons_self) with
      | term hterm => exact (hterm.elim nofun fun h => h.factored.here.elim)
      | sum _ htwo => exact htwo
    have hdistributes := distributes_of_perm hkept.plain hperm htwo
    have hreduces := hdistributes.reduces
    refine (Reaches.of_meets (meets_change hplain (Expr.replaceable_of_not_number rfl) hreduces none
      false)).bind fun _ t _ _ => ?_
    refine (h _ hdistributes t).mono fun r hr => ?_
    exact ⟨hreduces.trans hr.reduces, hr.settled⟩
  · rename_i hfirst
    refine .of_meets ?_
    extract_lets sorted numbers others
    have hsplit : Split (.prod kept) numbers others :=
      hkept.split (firstSum?_eq_none hfirst) (perm_canonicalSort kept)
    have hlengths : numbers.length + others.length = kept.length := by
      have hperm := (Expr.perm_numbers sorted).trans (perm_canonicalSort kept)
      rw [← hperm.length_eq, List.length_append, List.length_map]
    refine .ite (fun hfew => ?_) fun hmany => ?_
    · have hothers : others ≠ [] := by
        rintro hnil
        rw [hnil, List.length_nil] at hlengths
        omega
      obtain ⟨hresult, hmonomial, hvalue⟩ :=
        hsplit.buildProd_eq hsplit.numbers rfl hothers (by omega)
      have hreduces := Expr.Reduces.of_tight hplain (Expr.replaceable_of_not_number rfl) hresult
        (Expr.tight_of_factored hresult hmonomial.factored) hvalue
      refine (meets_become hplain hreduces fun _ => Expr.replaceable_of_not_number rfl).bind
        fun _ t _ _ => .pure ⟨hreduces, .term (.inr hmonomial)⟩
    · refine meets_multiplyNumbers hsplit ?_ hbound
      rintro hnil
      rw [hnil] at hmany
      exact hmany (Nat.zero_le 1)

/-- A zero takes the whole product. -/
theorem reduces_zero {factors : List Expr} (hplain : (Expr.prod factors).Everywhere Plain)
    (h : factors.any (·.isValue 0) = true) : (Expr.prod factors).Reduces 0 := by
  obtain ⟨f, hf, hvalue⟩ := List.any_eq_true.1 h
  have hzero : f = 0 :=
    Expr.eq_num_of_isValue ((hplain.factors f hf).mono Plain.regular) (by decide) hvalue
  subst hzero
  refine .to_num hplain (by decide) fun symbols => ?_
  rw [Expr.value_prod]
  exact List.prod_eq_zero (List.mem_map.2 ⟨0, hf, rfl⟩)

/-- Ones can be left out of a product. -/
theorem prod_filter_one {R : Type*} [CommSemiring R] {m : Meaning R} (hm : m.num 1 = 1)
    {factors : List Expr} (hplain : ∀ f ∈ factors, f.Everywhere Plain) :
    ((factors.filter (!·.isValue 1)).map (Expr.value m)).prod =
      (factors.map (Expr.value m)).prod := by
  induction factors with
  | nil => rfl
  | cons f rest ih =>
    obtain ⟨hf, hrest⟩ := List.forall_mem_cons.1 hplain
    rw [List.map_cons, List.prod_cons, ← ih hrest]
    by_cases hvalue : f.isValue 1 = true
    · have hone : f.value m = 1 := by
        rw [Expr.eq_one_of_isValue (hf.mono Plain.regular) hvalue]
        exact (Expr.value_num m 1).trans hm
      rw [List.filter_cons_of_neg (by simp [hvalue]), hone, one_mul]
    · rw [List.filter_cons_of_pos (by simp [hvalue]), List.map_cons, List.prod_cons]

theorem reduces_kept {factors : List Expr} (hplain : ∀ f ∈ factors, f.Everywhere Plain) :
    (Expr.prod factors).Reduces (Expr.prodOf (factors.filter (!·.isValue 1))) := by
  refine .of_replaceable (Expr.replaceable_of_not_number rfl) ?_ (fun symbols => ?_)
    fun w _ => le_of_eq ?_
  · exact Expr.plain_prodOf fun f hf => hplain f (List.mem_of_mem_filter hf)
  · rw [Expr.value_prodOf rfl, Expr.value_prod]
    exact prod_filter_one rfl hplain
  · rw [Expr.bulk_prod]
    exact (Expr.value_prodOf rfl _).trans (prod_filter_one rfl hplain)

theorem kept_filter {factors : List Expr} (hplain : ∀ f ∈ factors, f.Everywhere Plain)
    (hsettled : ∀ f ∈ factors, f.Settled) (hzero : ¬ factors.any (·.isValue 0) = true) :
    Kept (factors.filter (!·.isValue 1)) where
  plain f hf := hplain f (List.mem_of_mem_filter hf)
  settled f hf := hsettled f (List.mem_of_mem_filter hf)
  zero f hf := by
    rw [Bool.eq_false_iff]
    exact fun hvalue => hzero (List.any_eq_true.2 ⟨f, List.mem_of_mem_filter hf, hvalue⟩)
  one f hf := by simpa using (List.mem_filter.1 hf).2

/-- A product is worked if its factors are, and the sums that it is distributed to. -/
theorem reaches_product {parts : List Expr}
    (hparts : Reaches total .reduction s (fun d => siblings (simplify d) parts)
      (List.Forall₂ Expr.Simplified parts))
    (h : ∀ items, Distributes (.prod parts) items → (Expr.sum items).Worked total simplify)
    (hplain : (Expr.prod parts).Everywhere Plain) (hbound : (Expr.prod parts).magnitude < 2 ^ 63) :
    Reaches total .reduction s (fun d => product (simplify d) parts)
      (Expr.prod parts).Simplified := by
  have hchange : ∀ (t : Sheet) {factors : List Expr} {result : Expr},
      (Expr.prod parts).Reduces (.prod factors) → (Expr.prod factors).Reduces result →
      result.Settled → Meets .reduction t (do Work.change (.prod factors) result; return result)
        (Expr.prod parts).Simplified := by
    intro t factors result hfactors hreduces hresult
    exact (meets_change hfactors.plain (Expr.replaceable_of_not_number rfl) hreduces none false).bind
      fun _ t _ _ => .pure ⟨hfactors.trans hreduces, hresult⟩
  unfold product
  refine .ite (fun hany => .of_meets ?_) fun _ => ?_
  · exact hchange s (.refl hplain) (reduces_zero hplain hany) (settled_num 0)
  refine hparts.bind fun simplified t _ hsimplified => ?_
  have hfirst := Expr.Reduces.prod (forall_reduces hsimplified)
  extract_lets inTree
  refine .ite (fun hany => .of_meets ?_) fun hnone => ?_
  · exact hchange t hfirst (reduces_zero hfirst.plain hany) (settled_num 0)
  have hreduces : inTree.Reduces _ := reduces_kept hfirst.plain.factors
  have hkept := kept_filter hfirst.plain.factors (forall_settled hsimplified) hnone
  generalize simplified.filter (!·.isValue 1) = kept at hkept hreduces
  match kept with
  | [] => exact .of_meets (hchange t hfirst hreduces (settled_num 1))
  | [only] => exact .of_meets (hchange t hfirst hreduces (hkept.settled only (by simp)))
  | first :: second :: rest =>
    have hwhole := hfirst.trans hreduces
    have hbecome := meets_become (s := t) hfirst.plain hreduces fun _ =>
      Expr.replaceable_of_not_number rfl
    refine (Reaches.of_meets hbecome).bind fun _ t _ _ => ?_
    refine (reaches_factors hkept (Nat.le_add_left 2 _) (lt_of_le_of_lt hwhole.magnitude hbound)
      fun items hitems => h items (hitems.of_reduces hwhole)).mono fun r hr => ?_
    exact ⟨hwhole.trans hr.reduces, hr.settled⟩

/-! ### Powers of ten -/

section

variable {k : Int64} (hlow : 1 ≤ k.toInt) (hhigh : k.toInt ≤ 18)

include hlow hhigh

theorem pow?_ten : ∃ n : Number, Number.pow? 10 (.int k) = some n ∧ n.Natural ∧
    n.toInt = 10 ^ k.toInt.toNat := by
  have hbound : 10 ^ k.toInt.toNat ≤ 10 ^ 18 := Nat.pow_le_pow_right (by decide) (by omega)
  obtain ⟨power, hpower⟩ : ∃ power : Nat, power = 10 ^ k.toInt.toNat := ⟨_, rfl⟩
  have hcast : (power : Int) = 10 ^ k.toInt.toNat := by rw [hpower, Nat.cast_pow, Nat.cast_ofNat]
  rw [← hpower] at hbound
  obtain ⟨hnatural, hvalue⟩ := Number.natural_ofInt (n := power) (by omega) (by omega)
  rw [Number.ofInt_eq ⟨by omega, by omega⟩] at hnatural hvalue
  refine ⟨_, Number.pow?_int (b := 10) (by decide) (by omega) ?_ (hvalue.trans hcast), hnatural,
    hvalue.trans hcast⟩
  change 10 ^ k.toInt.toNat < 2 ^ 63
  omega

theorem plain_power : (Expr.pow 10 (.int k)).Everywhere Plain := by
  refine .intro ⟨rfl, k, rfl, hlow, hhigh⟩ fun part hpart => ?_
  rcases List.mem_pair.1 hpart with rfl | rfl
  · exact .num (show Number.Natural 10 by decide)
  · exact .num (show 0 ≤ k.toInt by omega)

theorem settled_power : (Expr.pow 10 (.int k)).Settled := by
  refine .term (.inr ⟨.intro trivial fun part hpart => ?_, rfl, ?_⟩)
  · rcases List.mem_pair.1 hpart with rfl | rfl
    · exact .num (show Number.toInt 10 ≠ 0 by decide)
    · exact .num (show k.toInt ≠ 0 by omega)
  · show (10 : ℤ) ≤ 10 ^ k.toInt.toNat
    exact le_self_pow₀ (by decide) (by omega)

theorem reduces_expanded : (Expr.pow 10 (.int k)).Reduces
    (.prod (List.replicate k.toInt.toNat 10)) := by
  refine .of_replaceable (Expr.replaceable_of_not_number rfl) (.prod trivial fun f hf => ?_)
    (fun symbols => ?_) fun w _ => ?_
  · rw [List.eq_of_mem_replicate hf]
    exact .num (show Number.Natural 10 by decide)
  · rw [Expr.value_prod, List.map_replicate, List.prod_replicate]
    rfl
  · rw [Expr.bulk_prod, List.map_replicate, List.prod_replicate, Expr.bulk_power]
    exact Nat.pow_le_pow_right (show 0 < 10 by decide) (by omega)

end

theorem meets_powerOfNumbers {p : Progress} {current : Expr} {base exponent n : Number}
    {value : Expr → Work Expr} {post : Expr → Prop} (hpow : base.pow? exponent = some n)
    (hvalue : Meets p s (value (.num n)) post) :
    Meets p s (powerOfNumbers current base exponent value) post := by
  unfold powerOfNumbers
  rw [hpow]
  exact .ite (fun _ => (Work.meets_written _).bind fun _ _ _ _ => .throw nofun) fun _ => hvalue

/-- An overflow keeps the power if the options say so. -/
theorem meets_overflow (words : OverflowWords) {current : Expr} {post : Expr → Prop}
    (hpolicy : s.options.overflow = .symbolic) (h : post current) :
    Meets .reduction s (overflow words current) post := by
  unfold overflow
  refine Work.meets_options.bind fun options t _ hoptions => ?_
  rw [hoptions.1, hpolicy]
  refine (Work.meets_written current).bind fun text t _ _ => ?_
  exact (meets_remarkOn ..).bind fun _ t _ _ => .pure h

/-- A power becomes a product of as many factors as the exponent says. -/
theorem expansion?_eq_some {options : Options} {k : Int64} {count : Nat}
    (h : expansion? options (.int k) = some count) : count = k.toInt.toNat := by
  unfold expansion? at h
  split at h
  · dsimp only [Number.toWord?, Number.normalize] at h
    split at h
    · exact (Option.some.inj h).symm
    · cases h
  · cases h

theorem reaches_numericPower {k : Int64} (hlow : 1 ≤ k.toInt) (hhigh : k.toInt ≤ 18)
    (h : (Expr.prod (List.replicate k.toInt.toNat 10)).Worked total simplify) :
    Reaches total .reduction s (fun d => numericPower (simplify d) (.pow 10 (.int k)) 10 (.int k))
      (Expr.pow 10 (.int k)).Simplified := by
  have hplain := plain_power hlow hhigh
  obtain ⟨n, hpow, hn, hvalue⟩ := pow?_ten hlow hhigh
  have hreduces : (Expr.pow 10 (.int k)).Reduces (.num n) := by
    refine .to_num hplain hn fun symbols => ?_
    rw [hvalue]
    rfl
  unfold numericPower
  refine (Reaches.of_meets Work.meets_options).bind fun options t hfollows hoptions => ?_
  rw [hoptions.2.magnitudeThreshold]
  refine .ite (fun hbeyond => .of_meets ?_) fun _ => .ite (fun _ => .of_meets ?_) fun _ => ?_
  · rcases hoptions.2.powers with hpolicy | hwithin
    · rw [hoptions.1, ← hfollows.options] at hpolicy
      exact meets_overflow _ hpolicy ⟨.refl hplain, settled_power hlow hhigh⟩
    · rw [hwithin k hlow hhigh] at hbeyond
      cases hbeyond
  · refine meets_powerOfNumbers hpow ?_
    refine (meets_calculatorMessage ..).bind fun message t _ _ => ?_
    refine (meets_change hplain (Expr.replaceable_of_not_number rfl) hreduces (some message)
      false).bind fun _ t _ _ => .pure ⟨hreduces, settled_num n⟩
  · split
    · rename_i count hcount
      obtain rfl := expansion?_eq_some hcount
      have hexpanded := reduces_expanded hlow hhigh
      refine (Reaches.of_meets (meets_change hplain (Expr.replaceable_of_not_number rfl) hexpanded none
        false)).bind fun _ t _ _ => ?_
      exact (h t).mono fun r hr => ⟨hexpanded.trans hr.reduces, hr.settled⟩
    · refine .of_meets (meets_powerOfNumbers hpow ?_)
      refine (Work.meets_changeIfPresent fun tree htree => ?_).bind fun _ t _ _ =>
        .pure ⟨hreduces, settled_num n⟩
      exact hreduces.replace hplain (Expr.replaceable_of_not_number rfl) htree

/-- A small number stays as it is. -/
theorem reaches_small {n : Int64} (h : (Expr.int n).Worked total simplify) (hsmall : n.toInt ≤ 18) :
    Reaches total .reduction s (fun d => simplify d (.int n)) fun e => e = .int n :=
  (h s).mono fun _ hr => hr.reduces.small n hsmall rfl

/-- A power of ten is worked if small numbers are, and the product that it is expanded to. -/
theorem reaches_power {k : Int64} (hlow : 1 ≤ k.toInt) (hhigh : k.toInt ≤ 18)
    (hsmall : ∀ n : Int64, 0 ≤ n.toInt → n.toInt ≤ 18 → (Expr.int n).Worked total simplify)
    (h : (Expr.prod (List.replicate k.toInt.toNat 10)).Worked total simplify) :
    Reaches total .reduction s (fun d => power (simplify d) 10 (.int k))
      (Expr.pow 10 (.int k)).Simplified := by
  have hk : (Number.int k).Natural := show 0 ≤ k.toInt by omega
  unfold power
  have hparts : Reaches total .reduction s (fun d => Work.withBlock [.int k] fun id => do
      let base ← simplify d 10
      return (base, ((← get).blockItem? id 0).getD (.int k))) fun parts => parts = (10, .int k) := by
    refine .withBlock ?_
    refine (reaches_small (hsmall 10 (by decide) (by decide)) (by decide)).bind
      fun base t hfollows hbase => .of_meets (.look fun _ => .pure ?_)
    obtain ⟨exponent, hitem, hrel⟩ := blockItem_append hfollows
    rw [hitem, hbase, (hrel (.num hk)).small k hhigh rfl]
    rfl
  refine hparts.bind fun parts t _ heq => ?_
  subst heq
  refine .ite (fun hzero => absurd hzero (by decide)) fun _ => ?_
  refine .ite (fun hone => absurd hone (by decide)) fun _ => ?_
  refine .ite (fun hroot => nomatch hroot) fun _ => ?_
  refine (reaches_small (hsmall k (by omega) hhigh) hhigh).bind fun exponent t _ hexponent => ?_
  subst hexponent
  refine .ite (fun hminus => ?_) fun _ => reaches_numericPower hlow hhigh h
  cases hminus

/-! ### Expressions -/

/-- A way of simplifying by which every expression over the natural numbers is worked. It may exhaust a
depth. -/
def Faithful (simplify : Simplifier) : Prop :=
  ∀ e : Expr, e.Everywhere Plain → e.magnitude < 2 ^ 63 → e.Worked False fun _ => simplify

theorem magnitude_expanded {k : Int64} (hlow : 1 ≤ k.toInt) (hhigh : k.toInt ≤ 18) :
    (Expr.prod (List.replicate k.toInt.toNat 10)).magnitude < 2 ^ 63 := by
  refine lt_of_le_of_lt (reduces_expanded hlow hhigh).magnitude ?_
  rw [← Expr.bulk_one, Expr.bulk_power]
  exact lt_of_le_of_lt (Nat.pow_le_pow_right (by decide) (show _ ≤ 18 by omega)) (by decide)

theorem magnitude_small {n : Int64} (hsmall : n.toInt ≤ 18) (hn : 0 ≤ n.toInt) :
    (Expr.int n).magnitude < 2 ^ 63 := by
  rw [← Expr.bulk_one, Expr.int, Expr.bulk_num]
  show max 1 n.toInt.natAbs < 2 ^ 63
  omega

theorem faithful_node {simplify : Simplifier} (h : Faithful simplify) : Faithful (node simplify) := by
  intro e hplain hbound s
  have hless {e' : Expr} (he' : e'.Everywhere Plain) (hle : e'.magnitude ≤ e.magnitude) :
      e'.Worked False fun _ => simplify :=
    h e' he' (lt_of_le_of_lt hle hbound)
  cases e with
  | num n => exact .of_meets (meets_literal hplain.here)
  | sym name => exact .of_meets (meets_symbol name)
  | sum terms =>
    refine reaches_sum (reaches_siblings_of_worked hplain.terms fun e he e' hreduces => ?_) hplain
      hbound
    exact hless hreduces.plain (hreduces.magnitude.trans (Expr.bulk_le_sum he))
  | prod factors =>
    refine reaches_product (reaches_siblings_of_worked hplain.factors fun e he e' hreduces => ?_)
      (fun items hitems => ?_) hplain hbound
    · have hle := Expr.bulk_le_prod le_rfl hplain.factors he
      exact hless hreduces.plain (hreduces.magnitude.trans hle)
    · exact hless hitems.reduces.plain hitems.reduces.magnitude
  | pow base exponent =>
    obtain ⟨rfl, k, rfl, hlow, hhigh⟩ := hplain.here
    refine reaches_power hlow hhigh (fun n hn hsmall => ?_) ?_
    · exact h _ (.num hn) (magnitude_small hsmall hn)
    · exact h _ (reduces_expanded hlow hhigh).plain (magnitude_expanded hlow hhigh)
  | call _ _ _ _ | deriv _ _ | integral _ _ _ _ => exact hplain.here.elim

end Simplify

/-- Simplifying to any depth is faithful. -/
theorem faithful_simplifyAt (depth : Nat) : Simplify.Faithful (Expr.simplifyAt depth) := by
  induction depth with
  | zero => exact fun e _ _ s => .throw False.elim
  | succ depth ih => exact Simplify.faithful_node ih

theorem faithful_simplify : Simplify.Faithful Expr.simplify :=
  faithful_simplifyAt Expr.maxDepth

end Workings

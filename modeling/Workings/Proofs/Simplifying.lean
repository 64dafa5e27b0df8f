import Workings.Proofs.Collecting
import Workings.Proofs.Floats
import Workings.Simplify.Basic

/-!
# Simplifying expressions over the natural numbers

`Expr.Worked total simplify e` says that a way of simplifying turns an expression over the natural
numbers into a settled expression of the same value, and that everything it does to the sheet on the way
reduces the tree and the open blocks. Each shape of expression is worked in this sense if what it is
simplified by way of is: the siblings below it, and the product that is distributed.
-/

namespace Workings

open Workings.Expr (Everywhere Plain Factored Term Monomial Settled)
open Work (Meets Reaches)

/-- What simplifying an expression gives. -/
structure Expr.Simplified (e result : Expr) : Prop where
  reduces : e.Reduces result
  settled : result.Settled

/-- Simplifying an expression only reduces what is on a sheet, whatever the sheet. -/
def Expr.Worked (total : Prop) (simplify : ℕ → Simplifier) (e : Expr) : Prop :=
  ∀ s : Sheet, Reaches total .reduction s (fun d => simplify d e) e.Simplified

namespace Simplify

variable {total : Prop} {s : Sheet} {simplify : ℕ → Simplifier}

/-! ### Leaves -/

/-- No integer is too small or too large to be taken for itself. -/
theorem clamp_int {options : Options} (hmin : options.minValue ≤ 1)
    (hclamp : options.clampLiterals = false) (n : Int64) : options.clamp (.int n) = .int n := by
  unfold Options.clamp
  rw [hclamp]
  simp only [Bool.false_and, Bool.false_eq_true, if_false]
  split
  · rename_i hsmall
    have hzero : n.toInt = 0 := by
      by_contra hne
      exact not_ofInt_abs_lt hne hmin hsmall
    exact congrArg Number.int (Int64.toInt_inj.1 hzero.symm)
  · rfl

theorem clamp_eq {options : Options} (h : options.Exact) {n : Number} (hn : n.Natural) :
    options.clamp n = n := by
  cases n with
  | float x => exact hn.elim
  | int n => exact clamp_int h.minValue h.clampLiterals n

theorem settled_num (n : Number) : (Expr.num n).Settled :=
  .term (.inl rfl)

theorem meets_literal {p : Progress} {n : Number} (hn : n.Natural) :
    Meets p s (literal n) (Expr.num n).Simplified := by
  unfold literal
  refine Work.meets_options.bind fun options t _ hoptions => ?_
  rw [clamp_eq hoptions.2 hn]
  dsimp only
  rw [hn.whole.beq_self]
  exact .pure ⟨.refl (.num hn), settled_num n⟩

theorem meets_symbol (name : String) :
    Meets .reduction s (symbol name) (Expr.sym name).Simplified := by
  unfold symbol
  refine .look fun hs => ?_
  have hvalue : s.bindings.value? name = none := by
    unfold Bindings.value?
    rw [hs.values]
    rfl
  rw [hvalue]
  have hplain : (Expr.sym name).Everywhere Plain := .intro trivial fun _ hpart => nomatch hpart
  refine .pure ⟨.refl hplain, .term (.inr ⟨?_, rfl, le_refl 10⟩)⟩
  exact .intro trivial fun _ hpart => nomatch hpart

/-! ### Siblings -/

theorem block_append (s : Sheet) (trees : List Expr) :
    Sheet.block { s with blocks := s.blocks ++ [trees] } s.blocks.length = trees := by
  simp [Sheet.block]

section

variable (left : ℕ → Expr → Expr → Prop) (progress : ℕ → Progress) {p : Progress}
  {post : Expr → Expr → Prop} {trees : List Expr}
  (hitem : ∀ i (hi : i < trees.length) e, left i trees[i] e →
    ∀ s : Sheet, Reaches total (progress i) s (fun d => simplify d e) (post trees[i]))
  (hleft : ∀ i tree a b, left i tree a → (progress i).rel a b → left (i + 1) tree b)
  (hprogress : ∀ i a b, (progress i).rel a b → p.rel a b)

include hitem hleft hprogress

/-- The trees of a block are simplified one by one, as the changes before left them: `left i tree tree'`
says what can be left of a tree when it is the turn of the one with index `i`. -/
theorem reaches_blockFrom {id index count : Nat} (hlength : index + count = trees.length)
    (hblock : List.Forall₂ (left index) trees (s.block id)) :
    Reaches total p s (fun d => blockFrom (simplify d) id index count)
      (List.Forall₂ post (trees.drop index)) := by
  induction count generalizing s index with
  | zero =>
    rw [List.drop_eq_nil_of_le (by omega)]
    exact .of_meets (.pure .nil)
  | succ count ih =>
    have hindex : index < trees.length := by omega
    have hindex' : index < (s.block id).length := hblock.length_eq ▸ hindex
    unfold blockFrom
    refine .look fun _ => ?_
    rw [Sheet.blockItem?, List.getElem?_eq_getElem hindex']
    dsimp only
    refine (hitem index hindex _ (hblock.get hindex hindex') s).bindWeaken (hprogress index)
      fun simplified t hfollows hsimplified => ?_
    have hblock' : List.Forall₂ (left (index + 1)) trees (t.block id) := by
      have hblock'' := hfollows.block id
      refine List.forall₂_iff_get.2 ⟨hblock.length_eq.trans hblock''.length_eq, fun i hi hi' => ?_⟩
      have hi'' : i < (s.block id).length := hblock''.length_eq.symm ▸ hi'
      exact hleft index _ _ _ (hblock.get hi hi'') (hblock''.get hi'' hi')
    refine (ih (by omega) hblock').bind fun rest u _ hrest => .of_meets (.pure ?_)
    rw [List.drop_eq_getElem_cons hindex]
    exact .cons hsimplified hrest

/-- Siblings are simplified. -/
theorem reaches_siblings (hstart : ∀ e ∈ trees, left 0 e e) :
    Reaches total p s (fun d => siblings (simplify d) trees) (List.Forall₂ post trees) := by
  refine .withBlock (.look fun _ => ?_)
  rw [block_append]
  refine reaches_blockFrom left progress hitem hleft hprogress (Nat.zero_add _) ?_
  rw [block_append]
  exact List.forall₂_same.2 hstart

end

/-- Siblings are worked if whatever they are reduced to is. -/
theorem reaches_siblings_of_worked {trees : List Expr} (hplain : ∀ e ∈ trees, e.Everywhere Plain)
    (h : ∀ e ∈ trees, ∀ e', e.Reduces e' → e'.Worked total simplify) :
    Reaches total .reduction s (fun d => siblings (simplify d) trees)
      (List.Forall₂ Expr.Simplified trees) := by
  refine reaches_siblings (fun _ => Expr.Reduces) (fun _ => .reduction)
    (fun i hi e he s => ?_) (fun _ _ _ _ hreduces hrel => hreduces.trans (hrel hreduces.plain))
    (fun _ _ _ => id) fun e he => .refl (hplain e he)
  refine (h _ (List.getElem_mem hi) e he s).mono fun r hr => ?_
  exact ⟨he.trans hr.reduces, hr.settled⟩

/-- The tree that was put into a block of its own, after progress was made. -/
theorem blockItem_append {p : Progress} {t : Sheet} {tree : Expr}
    (h : Sheet.Follows p { s with blocks := s.blocks ++ [[tree]] } t) :
    ∃ tree', t.blockItem? s.blocks.length 0 = some tree' ∧ p.rel tree tree' := by
  have hblock := h.block s.blocks.length
  rw [block_append] at hblock
  unfold Sheet.blockItem?
  generalize t.block s.blocks.length = items at hblock
  cases hblock with
  | cons hrel _ => exact ⟨_, rfl, hrel⟩

/-! ### Sums -/

theorem meets_addAll {total : Number} {ns : List Number} (htotal : total.Natural)
    (hns : ∀ n ∈ ns, n.Natural) (hbound : total.toInt + (ns.map Number.toInt).sum < 2 ^ 63) :
    Meets .addition s (addAll total ns)
      fun r => r.Natural ∧ r.toInt = total.toInt + (ns.map Number.toInt).sum := by
  induction ns generalizing s total with
  | nil => exact .pure ⟨htotal, by simp⟩
  | cons n ns ih =>
    obtain ⟨hn, hrest⟩ := List.forall_mem_cons.1 hns
    have hnonneg := Number.sum_nonneg hrest
    rw [List.map_cons, List.sum_cons] at hbound ⊢
    unfold addAll
    refine (meets_add htotal hn (by omega)).bind fun sum t _ hsum => ?_
    obtain ⟨hnatural, hvalue⟩ := hsum
    refine (ih hnatural hrest (by omega)).mono fun r hr => ⟨hr.1, ?_⟩
    rw [hr.2, hvalue, Int.add_assoc]

/-- What is known after the numbers of a sum were added: the numeric part, and the sum in the tree. -/
structure Added (current : Expr) (numbers : List Number) (result : Option Number × Expr) : Prop where
  natural : (result.1.getD 0).Natural
  total : (result.1.getD 0).toInt = (numbers.map Number.toInt).sum
  reduces : current.Reduces result.2
  polynomial : ∀ k ≤ 2, current.Polynomial k → result.2.Polynomial k
  length : result.1.toList.length ≤ numbers.length

theorem meets_addNumbers {current : Expr} {numbers : List Number}
    (hcurrent : current.Everywhere Plain) (hnumbers : ∀ n ∈ numbers, n.Natural)
    (hbound : (numbers.map Number.toInt).sum < 2 ^ 63) :
    Meets .reduction s (addNumbers current numbers) (Added current numbers) := by
  match numbers with
  | [] => exact .pure ⟨show Number.Natural 0 by decide, rfl, .refl hcurrent, fun _ _ => id, le_refl 0⟩
  | [only] => exact .pure ⟨hnumbers only (by simp), by simp, .refl hcurrent, fun _ _ => id, le_refl 1⟩
  | first :: second :: rest =>
    obtain ⟨hfirst, hrest⟩ := List.forall_mem_cons.1 hnumbers
    unfold addNumbers
    refine Work.meets_withBlock (.weaken Progress.reduction_of_addition ?_)
    refine (meets_addAll hfirst hrest hbound).bind fun total t hfollows htotal => .look fun _ => ?_
    obtain ⟨tree, htree, hrel⟩ := blockItem_append hfollows
    rw [htree]
    exact .pure ⟨htotal.1, htotal.2, (hrel hcurrent).1, (hrel hcurrent).2, Nat.le_add_left 1 _⟩

/-- A node that becomes another one of the same value. -/
theorem meets_become {current result : Expr} (hcurrent : current.Everywhere Plain)
    (h : current.Reduces result) (hr : (current == result) = false → current.Replaceable) :
    Meets .reduction s (become current result) fun _ => True := by
  unfold become
  refine .ite (fun hne => ?_) fun _ => .pure trivial
  rw [Bool.not_eq_true'] at hne
  exact meets_change hcurrent (hr hne) h none false

/-- An expression that becomes its value. A number is its value already. -/
theorem meets_become_num {current : Expr} (hcurrent : current.Everywhere Plain) {n : Number}
    (hn : n.Natural) (hvalue : ∀ symbols, current.value (.integers symbols) = n.toInt) :
    Meets .reduction s (become current (.num n)) fun _ => True := by
  refine meets_become hcurrent (.to_num hcurrent hn hvalue) fun hne => ?_
  rintro k rfl
  have heq : Number.int k = n := Number.Natural.eq_of_toInt hcurrent.here hn (hvalue fun _ => 0)
  rw [← heq, show (Expr.int k == Expr.num (.int k)) = true from Expr.beq_self hcurrent] at hne
  cases hne

theorem forall_settled {trees simplified : List Expr}
    (h : List.Forall₂ Expr.Simplified trees simplified) : ∀ e ∈ simplified, e.Settled := by
  induction h with
  | nil => exact fun _ hmem => nomatch hmem
  | cons hab _ ih => exact List.forall_mem_cons.2 ⟨hab.settled, ih⟩

theorem forall_reduces {trees simplified : List Expr}
    (h : List.Forall₂ Expr.Simplified trees simplified) :
    List.Forall₂ Expr.Reduces trees simplified :=
  h.imp fun _ _ hab => hab.reduces

theorem forall_monomial {es : List Expr} (h : ∀ e ∈ es, e.Term) :
    ∀ e ∈ es.filter (!·.isNumber), e.Monomial := by
  intro e he
  obtain ⟨hmem, hnumber⟩ := List.mem_filter.1 he
  rcases h e hmem with hnumber' | hmonomial
  · rw [hnumber'] at hnumber
    cases hnumber
  · exact hmonomial

/-- Putting together the numeric part of a sum and its other terms. -/
theorem kept_eq {total : Option Number} {others : List Expr} (htotal : (total.getD 0).Natural)
    (hplain : ∀ t ∈ others, t.Everywhere Plain) (h : ∀ t ∈ others, t.Monomial)
    (hne : others ≠ []) (hbound : (others.map (Expr.value (.integers fun _ => 1))).sum < 2 ^ 63) :
    let kept := (total.filter (!·.isZero)).toList.map Expr.num ++ combineLikeTerms others
    (∀ t ∈ kept, t.Everywhere Plain ∧ t.Everywhere Factored ∧ t.Term) ∧ kept ≠ [] ∧
      ∀ symbols, (kept.map (Expr.value (.integers symbols))).sum =
        (total.getD 0).toInt + (others.map (Expr.value (.integers symbols))).sum := by
  intro kept
  obtain ⟨hcombined, hvalue⟩ := combineLikeTerms_eq hplain h hbound
  have hcombined_ne : combineLikeTerms others ≠ [] := by
    intro hnil
    have hsum := hvalue fun _ => 10
    rw [hnil, List.map_nil, List.sum_nil] at hsum
    obtain ⟨t, ht⟩ := List.exists_mem_of_ne_nil others hne
    have hle := List.single_le_sum (l := others.map (Expr.value (.integers fun _ => 10)))
      (fun a ha => ?_) _ (List.mem_map_of_mem ht)
    · have hlarge := (h t ht).large
      omega
    · obtain ⟨t, ht, rfl⟩ := List.mem_map.1 ha
      have hlarge := (h t ht).large
      omega
  have hnumbers : (∀ t ∈ (total.filter (!·.isZero)).toList.map Expr.num,
      t.Everywhere Plain ∧ t.Everywhere Factored ∧ t.Term) ∧ ∀ symbols,
      (((total.filter (!·.isZero)).toList.map Expr.num).map (Expr.value (.integers symbols))).sum =
        (total.getD 0).toInt := by
    cases total with
    | none => exact ⟨(fun _ hmem => nomatch hmem), fun _ => rfl⟩
    | some n =>
      have hn : n.Natural := htotal
      by_cases hzero : n.isZero = true
      · have hvalue : n.toInt = 0 := hn.whole.isZero_iff.1 hzero
        simp [Option.filter, hzero, hvalue]
      · have hne : n.toInt ≠ 0 := fun hvalue => hzero (hn.whole.isZero_iff.2 hvalue)
        have hterm : (Expr.num n).Term := .inl rfl
        have hplain : (Expr.num n).Everywhere Plain := .num hn
        have hfactored : (Expr.num n).Everywhere Factored := .num hne
        simp [Option.filter, hzero, hterm, hplain, hfactored, Meaning.integers]
  refine ⟨fun t ht => ?_, by simp [kept, hcombined_ne], fun symbols => ?_⟩
  · rcases List.mem_append.1 ht with ht | ht
    · exact hnumbers.1 t ht
    · exact hcombined t ht
  · rw [List.map_append, List.sum_append, hnumbers.2, hvalue]

theorem sumOf_eq {kept : List Expr} (hne : kept ≠ [])
    (h : ∀ t ∈ kept, t.Everywhere Plain ∧ t.Everywhere Factored ∧ t.Term) :
    (Expr.sumOf kept).Everywhere Plain ∧ (Expr.sumOf kept).Tight ∧ (Expr.sumOf kept).Settled ∧
      ∀ symbols, (Expr.sumOf kept).value (.integers symbols) =
        (kept.map (Expr.value (.integers symbols))).sum := by
  match kept with
  | [] => exact (hne rfl).elim
  | [t] =>
    obtain ⟨hplain, hfactored, hterm⟩ := h t (by simp)
    exact ⟨hplain, Expr.tight_of_factored hplain hfactored, .term hterm, fun _ => by simp [Expr.sumOf]⟩
  | first :: second :: rest =>
    refine ⟨.sum hne fun t ht => (h t ht).1, Expr.tight_sum fun t ht => ?_,
      .sum (fun t ht => ?_) (Nat.le_add_left 2 _), ?_⟩
    · exact Expr.tight_of_factored (h t ht).1 (h t ht).2.1
    · exact (h t ht).2.2
    · exact fun symbols => Expr.value_sum _ _

/-- The terms of a sum that are simplified and opened if there are sums among them. -/
theorem opened_eq {simplified : List Expr} (hplain : ∀ e ∈ simplified, e.Everywhere Plain)
    (h : ∀ e ∈ simplified, e.Settled) (hne : simplified ≠ []) :
    let terms := if simplified.any Expr.isSum then openTerms simplified else simplified
    (∀ t ∈ terms, t.Term) ∧ (Expr.sum simplified).Reduces (.sum terms) := by
  intro terms
  have hsimplified : (Expr.sum simplified).Everywhere Plain := .sum hne hplain
  by_cases hany : simplified.any Expr.isSum = true
  · simp only [terms, hany, if_true]
    refine ⟨term_openTerms h, ?_⟩
    refine .of_replaceable (Expr.replaceable_of_not_number rfl) (.sum ?_ ?_) (fun symbols => ?_)
      fun w _ => ?_
    · exact openTerms_ne_nil hplain hne
    · exact everywhere_openTerms hplain
    · rw [Expr.value_sum, Expr.value_sum, sum_openTerms]
    · rw [Expr.bulk_sum, Expr.bulk_sum]
      exact le_of_eq (sum_openTerms (Meaning.bulks w) simplified)
  · simp only [terms, hany]
    refine ⟨fun t ht => ?_, .refl hsimplified⟩
    cases h t ht with
    | term hterm => exact hterm
    | sum _ _ => exact (hany (List.any_eq_true.2 ⟨_, ht, rfl⟩)).elim

/-- A sum of terms whose numbers were taken apart from its other terms. -/
structure SplitSum (e : Expr) (numbers : List Number) (others : List Expr) : Prop where
  value : ∀ symbols, e.value (.integers symbols) =
    (numbers.map Number.toInt).sum + (others.map (Expr.value (.integers symbols))).sum
  natural : ∀ n ∈ numbers, n.Natural
  numbers_lt : (numbers.map Number.toInt).sum < 2 ^ 63
  plain : ∀ t ∈ others, t.Everywhere Plain
  monomial : ∀ t ∈ others, t.Monomial
  others_lt : (others.map (Expr.value (.integers fun _ => 1))).sum < 2 ^ 63

theorem splitSum {terms : List Expr} (hplain : (Expr.sum terms).Everywhere Plain)
    (h : ∀ t ∈ terms, t.Term) (hbound : (Expr.sum terms).magnitude < 2 ^ 63) :
    SplitSum (.sum terms) (terms.filterMap Expr.number?) (terms.filter (!·.isNumber)) := by
  have hvalue : ∀ symbols, (Expr.sum terms).value (.integers symbols) =
      ((terms.filterMap Expr.number?).map Number.toInt).sum +
        ((terms.filter (!·.isNumber)).map (Expr.value (.integers symbols))).sum := by
    intro symbols
    rw [Expr.value_sum]
    exact (Expr.sum_numbers (.integers symbols) terms).symm
  have hnumbers : ∀ n ∈ terms.filterMap Expr.number?, n.Natural := fun n hn =>
    Expr.everywhere_number hplain.terms hn
  have hothers : ∀ t ∈ terms.filter (!·.isNumber), t.Everywhere Plain := fun t ht =>
    hplain.terms t (List.mem_of_mem_filter ht)
  have hnumbers_nonneg := Number.sum_nonneg hnumbers
  have hothers_nonneg :
      0 ≤ ((terms.filter (!·.isNumber)).map (Expr.value (.integers fun _ => 1))).sum :=
    (Expr.sum_between fun t ht => Expr.value_le_magnitude (hothers t ht)).1
  have hle := (Expr.value_le_magnitude hplain).2
  rw [hvalue] at hle
  exact ⟨hvalue, hnumbers, by omega, hothers, forall_monomial h, by omega⟩

/-- What the collected terms of a sum are put together to. -/
theorem SplitSum.collect {e current : Expr} {numbers : List Number} {others : List Expr}
    (h : SplitSum e numbers others) {total : Option Number} (hne : others ≠ [])
    (hadded : Added e numbers (total, current)) (hr : current.Replaceable) :
    let result := Expr.sumOf
      ((total.filter (!·.isZero)).toList.map Expr.num ++ combineLikeTerms others)
    current.Reduces result ∧ result.Settled := by
  intro result
  obtain ⟨hkept, hkept_ne, hvalue⟩ :=
    kept_eq hadded.natural h.plain h.monomial hne h.others_lt
  obtain ⟨hresult, htight, hsettled, hresult_value⟩ := sumOf_eq hkept_ne hkept
  refine ⟨.of_tight hadded.reduces.plain hr hresult htight fun symbols => ?_, hsettled⟩
  rw [hresult_value, hvalue, hadded.reduces.value, h.value, ← hadded.total]

/-- A sum is worked if its terms are. -/
theorem reaches_sum {terms : List Expr}
    (h : Reaches total .reduction s (fun d => siblings (simplify d) terms)
      (List.Forall₂ Expr.Simplified terms))
    (hplain : (Expr.sum terms).Everywhere Plain) (hbound : (Expr.sum terms).magnitude < 2 ^ 63) :
    Reaches total .reduction s (fun d => sum (simplify d) terms) (Expr.sum terms).Simplified := by
  unfold sum
  refine h.bind fun simplified t _ hsimplified => .of_meets ?_
  have hfirst := Expr.Reduces.sum (forall_reduces hsimplified) hplain.here
  obtain ⟨hterms, hopened⟩ :=
    opened_eq hfirst.plain.terms (forall_settled hsimplified) hfirst.plain.here
  extract_lets opened numbers others collect
  have hwhole : (Expr.sum terms).Reduces (.sum opened) := hfirst.trans hopened
  have hsplit : SplitSum (.sum opened) numbers others :=
    splitSum hwhole.plain hterms (lt_of_le_of_lt hwhole.magnitude hbound)
  have hcollect : ∀ u t, Meets .reduction t (collect u) (Expr.sum terms).Simplified := by
    intro u t
    refine (meets_addNumbers hwhole.plain hsplit.natural hsplit.numbers_lt).bind
      fun added t _ hadded => ?_
    obtain ⟨total, current⟩ := added
    have hcurrent : (Expr.sum terms).Reduces current := hwhole.trans hadded.reduces
    refine .ite (fun hempty => ?_) fun hnonempty => ?_
    · have hnumber : ∀ symbols, current.value (.integers symbols) = (total.getD 0).toInt := by
        intro symbols
        rw [hadded.reduces.value, hsplit.value, List.isEmpty_iff.1 hempty, hadded.total]
        simp
      refine (meets_become_num hcurrent.plain hadded.natural hnumber).bind fun _ t _ _ => .pure ?_
      exact ⟨hcurrent.trans (.to_num hcurrent.plain hadded.natural hnumber), settled_num _⟩
    · have hne : others ≠ [] := fun hnil => hnonempty (List.isEmpty_iff.2 hnil)
      obtain ⟨other, hother⟩ := List.exists_mem_of_ne_nil others hne
      obtain ⟨terms', rfl, hpolynomial⟩ := hadded.polynomial (min 2 opened.length)
        (Nat.min_le_left ..) ⟨opened, rfl, hterms, Nat.min_le_right .., other,
          List.mem_of_mem_filter hother, (hsplit.monomial other hother).number⟩
      have hlengths := (Expr.perm_numbers opened).length_eq
      rw [List.length_append, List.length_map] at hlengths
      have hr : (Expr.sum terms').Replaceable := Expr.replaceable_of_not_number rfl
      obtain ⟨hreduces, hsettled⟩ := hsplit.collect hne hadded hr
      refine .ite (fun _ => ?_) fun hkept => .pure ⟨hcurrent, .sum hpolynomial.term ?_⟩
      · exact (meets_change hcurrent.plain hr hreduces none false).bind fun _ t _ _ =>
          .pure ⟨hcurrent.trans hreduces, hsettled⟩
      · -- A sum of one term would have been unwrapped.
        have hpos := List.length_pos_iff.2 hne
        have htotal : total.toList.length ≤ numbers.length := hadded.length
        have hterms' := hpolynomial.length
        rw [not_or, not_ne_iff] at hkept
        change numbers.length + others.length = opened.length at hlengths
        omega
  refine .iteBind (fun _ => ?_) fun u t _ => hcollect u t
  exact meets_change hfirst.plain (Expr.replaceable_of_not_number rfl) hopened none false

end Simplify

end Workings

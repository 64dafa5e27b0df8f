import Workings.Proofs.Parallel

/-!
# Solving on two sheets at once

One lemma for each function of a solution says that it goes on in parallel on sheets that are alike
(`Work.Parallel`). On an expression within the vocabulary of the sheets it gives the same expression on
both of them, which is within the vocabulary again: numbers, parts of the tree, values of symbols, and
products, powers and sums of these. Only the rules of calculus are not followed into the vocabulary, and
where there are any it holds every expression.
-/

namespace Workings

open Work (Parallel Remarking)
open Likeness (shown_iff)
open Vocabulary

variable {k : Likeness}

/-! ### Arithmetic by hand -/

theorem calculatorMessage_parallel (operation : Operation) (expression result : Expr)
    (operands : List Number) :
    Parallel k k.Says (calculatorMessage operation expression result operands)
      (calculatorMessage operation expression result operands) := by
  have hanswers : Work.Answers (calculatorMessage operation expression result operands) := by
    refine .look fun s => ?_
    dsimp only
    split
    · exact Work.answers_ask _
    · exact Work.answers_pure _
  refine .answer hanswers hanswers fun hk s t hst => ?_
  obtain ⟨hphrasing, hwrite, hsteady⟩ := hst.words hk
  unfold calculatorMessage
  rw [Work.exec_get_bind, Work.exec_get_bind, hst.options.2 hk, hphrasing, hwrite]
  dsimp only
  split
  · exact congrArg Except.ok (hsteady _ _ _ _ _)
  · rfl

theorem remarkOnColumn_parallel (column : Column) :
    Parallel k Eq (remarkOnColumn column) (remarkOnColumn column) := by
  unfold remarkOnColumn
  refine .ite ?_ (.pure rfl)
  extract_lets sum digit addition finish carry borrow
  have hfinish : ∀ suffix suffix', k.Says suffix suffix' →
      Parallel k Eq (finish suffix) (finish suffix') := by
    intro suffix suffix' hsuffix
    refine .withOptions fun o p ho => ?_
    refine (Remarking.remark (fun hk => ?_) false).whenever (shown_iff ho (·.showPlaceValueSteps))
    rw [hsuffix hk]
  refine .ite ?_ (.ite ?_ ?_)
  · exact (Parallel.wording _ .refl).bind hfinish
  · exact (Parallel.wording _ .refl).bind hfinish
  · exact (Parallel.pure (.refl "")).bind hfinish

theorem remarkOnColumns_parallel (columns : List Column) :
    Parallel k Eq (columns.forM remarkOnColumn) (columns.forM remarkOnColumn) := by
  induction columns with
  | nil => exact .pure rfl
  | cons column columns ih => exact (remarkOnColumn_parallel column).andThen ih

theorem remarkOnCarry_parallel (left : Nat) (carry : Int) :
    Parallel k Eq (remarkOnCarry left carry) (remarkOnCarry left carry) := by
  unfold remarkOnCarry
  refine .withOptions fun o p ho => ?_
  refine (Remarking.remarkOn _ .refl).whenever fun hk => ?_
  rw [← ho hk]

theorem covers_sumOfNumbers (values : List Number) : k.Covers (sumOfNumbers values) :=
  covers_sum (covers_numbers values)

theorem addComponents_parallel (components : List Number) :
    Parallel k Eq (addComponents components) (addComponents components) := by
  unfold addComponents
  extract_lets columns result rest
  have hrest : Parallel k Eq (rest ()) (rest ()) := by
    refine (remarkOnColumns_parallel _).andThen ((remarkOnCarry_parallel _ _).andThen ?_)
    refine .remarkOn _ .refl ?_
    exact (Parallel.rewrite _ (covers_num _)).andThen (.pure rfl)
  refine .withOptions fun o p ho => ?_
  exact .iteBind ((Remarking.remark (.refl _) false).whenever
    (shown_iff ho (·.showAlignment))) hrest

theorem add_parallel (a b : Number) : Parallel k Eq (add a b) (add a b) := by
  unfold add
  extract_lets expression quick operation components finish
  have hfinish : ∀ result result', result = result' →
      Parallel k Eq (finish result) (finish result') := by
    rintro result _ rfl
    exact (Parallel.remark (.refl "") true).andThen (.pure rfl)
  refine .withOptions fun o p ho => ?_
  have hquick : Parallel k Eq (do Work.change expression (.num quick); pure quick)
      (do Work.change expression (.num quick); pure quick) :=
    (Parallel.rewrite _ (covers_num quick)).andThen (.pure rfl)
  refine .ite hquick (.ite ?_ (.ite hquick ?_))
  · refine (calculatorMessage_parallel _ _ _ _).bind fun message message' hmessage => ?_
    exact (Parallel.explain _ (covers_num quick) hmessage).andThen (.pure rfl)
  · extract_lets rest rest'
    refine .remarkOnIf (shown_iff ho (·.showComplexity)) _ .refl ?_
    refine (Parallel.rewrite _ (covers_sumOfNumbers components)).andThen ?_
    refine .ite ((addComponents_parallel _).bind hfinish) ?_
    exact (Parallel.rewrite _ (covers_num quick)).andThen ((Parallel.pure rfl).bind hfinish)

theorem estimateProduct?_parallel (a b : Number) :
    Parallel k k.SameOption (estimateProduct? a b) (estimateProduct? a b) := by
  have hnone : k.SameOption none none := ⟨rfl, fun _ h => nomatch h⟩
  unfold estimateProduct?
  refine .withOptions fun o p ho => ?_
  rw [Options.presentedBy_magnitudeThreshold]
  cases o.magnitudeThreshold with
  | none => exact .pure hnone
  | some threshold =>
    refine .ite (.pure hnone) ?_
    refine (Parallel.report _ _).andThen ((Parallel.remark (.refl _) false).andThen ?_)
    refine (Parallel.remark (.refl _) false).andThen ((Parallel.remark (.refl _) false).andThen ?_)
    refine (Parallel.written _).bind fun text text' htext => ?_
    refine (Parallel.estimate _ (covers_orderOfMagnitude _ _) fun hk => by rw [htext hk]).andThen ?_
    refine .pure ⟨rfl, fun e he => ?_⟩
    cases he
    exact covers_orderOfMagnitude _ _

theorem NearPower.covers_ordered (near : NearPower) {split other : Expr} (hsplit : k.Covers split)
    (hother : k.Covers other) : k.Covers (near.ordered split other) := by
  unfold NearPower.ordered
  split
  · exact covers_prod (covers_pair hsplit hother)
  · exact covers_prod (covers_pair hother hsplit)

theorem roundAndAdjust?_parallel {multiply : Number → Number → Work Expr}
    (hmultiply : ∀ a b, Parallel k k.Same (multiply a b) (multiply a b)) (a b : Number) :
    Parallel k Eq (roundAndAdjust? multiply a b) (roundAndAdjust? multiply a b) := by
  unfold roundAndAdjust?
  refine .withOptions fun o p ho => ?_
  rw [Options.presentedBy_implicitMultiplicationLimit]
  extract_lets limit done
  cases NearPower.find? limit a b with
  | none => exact .pure rfl
  | some near =>
    have hpair (m n : Number) : k.Covers (.sum [.num m, .num n]) :=
      covers_sum (covers_pair (covers_num m) (covers_num n))
    have hadjustment : k.Covers (near.ordered (.num near.distance) (.num near.other)).neg :=
      (near.covers_ordered (covers_num _) (covers_num _)).neg
    have hsplit := near.covers_ordered (hpair near.power (-near.distance)) (covers_num near.other)
    refine (Parallel.rewrite _ hsplit).andThen ?_
    refine .ite ((Parallel.rewrite _ (covers_num _)).andThen (.pure rfl)) ?_
    extract_lets rounded adjustment finish
    have hfinish : ∀ e e', k.Same e e' → Parallel k Eq (finish e) (finish e') := by
      rintro e _ ⟨rfl, -⟩
      unfold finish
      cases e with
      | num n => exact (Parallel.rewrite _ (covers_num _)).andThen (.pure rfl)
      | _ => exact .pure rfl
    have hsum : k.Covers (.sum [.num rounded, adjustment.neg]) :=
      covers_sum (covers_pair (covers_num _) hadjustment)
    refine (Parallel.rewrite _ hsum).andThen ?_
    exact .ite ((hmultiply _ _).bind hfinish) ((hmultiply _ _).bind hfinish)

theorem approximateFactor_parallel (name : FactorName) (record : Bool) (x : Number) :
    Parallel k Eq (approximateFactor name record x) (approximateFactor name record x) := by
  unfold approximateFactor
  refine .withOptions fun o p ho => ?_
  dsimp only
  refine .ite (.pure rfl) ?_
  split
  · exact .pure rfl
  · refine .ite ?_ (.pure rfl)
    refine (Parallel.wording _ .refl).bind fun text text' htext => ?_
    exact (Parallel.estimate _ (covers_num _) htext).andThen (.pure rfl)

theorem remarkOnShift_remarking (name : FactorName) (x : Number) (exponent : Int) :
    Remarking k (remarkOnShift name x exponent) (remarkOnShift name x exponent) :=
  .remarkOn _ .refl

theorem multiplyComponents_parallel (a b : Int64) (ca cb : Number) :
    Parallel k Eq (multiplyComponents a b ca cb) (multiplyComponents a b ca cb) := by
  unfold multiplyComponents
  refine .withOptions fun o p ho => ?_
  extract_lets exact as bs products factored done add table table'
  have hadd : Parallel k Eq (add ()) (add ()) := by
    refine (addComponents_parallel products).bind ?_
    rintro result _ rfl
    exact .iteBind (.ite (.changeIfPresent _ (covers_num _)) (.pure rfl)) (.pure rfl)
  have htable : Parallel k Eq (table ()) (table' ()) := by
    refine (Parallel.rewrite _ (covers_sumOfNumbers products)).andThen (.ite ?_ ?_)
    · exact .remarkOnIf (shown_iff ho (·.showValueList)) _ .refl hadd
    · exact (Parallel.rewrite _ (covers_num _)).andThen (.pure rfl)
  have hfactored : k.Covers factored :=
    covers_prod (covers_pair (covers_sumOfNumbers as) (covers_sumOfNumbers bs))
  refine (Parallel.rewrite _ hfactored).andThen ?_
  -- The heading and the table are shown together or not at all.
  simp only [← bind_assoc]
  refine .iteBind (Remarking.whenever ?_ (shown_iff ho (·.showMultiplicationTable))) htable
  exact (Remarking.remarkOn _ .refl).andThen (.remark (.refl _) false)

theorem scaleBack_parallel (exact : Number) (exponent : Int) :
    Parallel k k.Same (scaleBack exact exponent) (scaleBack exact exponent) := by
  unfold scaleBack
  refine .ite ?_ (.pure (.refl ?_))
  · exact (Parallel.rewrite _ (covers_num _)).returning (covers_num _)
  · exact covers_prod (covers_pair (covers_num _) (covers_pow (covers_num _) (covers_num _)))

theorem multiplyAtLength_parallel (a b : Number) :
    Parallel k k.Same (multiplyAtLength a b) (multiplyAtLength a b) := by
  unfold multiplyAtLength
  refine .withOptions fun o p ho => ?_
  extract_lets finish work product work'
  have hfinish : ∀ result result', k.Same result result' →
      Parallel k k.Same (finish result) (finish result') :=
    fun _ _ h => (Parallel.remark (.refl "") true).andThen (.pure h)
  refine .remarkOnIf (shown_iff ho (·.showComplexity)) _ .refl ?_
  refine (approximateFactor_parallel _ _ _).bind ?_
  rintro a _ rfl
  refine (approximateFactor_parallel _ _ _).bind ?_
  rintro b _ rfl
  dsimp only
  split
  · refine .iteBind ((remarkOnShift_remarking _ _ _).whenever fun hk => by rw [← ho hk]) ?_
    refine .iteBind ((remarkOnShift_remarking _ _ _).whenever fun hk => by rw [← ho hk]) ?_
    refine .iteBind (.ite (.rewrite _ ?_) (.pure rfl)) ?_
    · exact covers_prod (List.forall_mem_cons.2 ⟨covers_num _,
        covers_pair (covers_num _) (covers_pow (covers_num _) (covers_num _))⟩)
    · refine (multiplyComponents_parallel _ _ _ _).bind ?_
      rintro exact _ rfl
      refine .ite ((scaleBack_parallel _ _).bind hfinish) ?_
      exact (Parallel.pure (.refl (covers_num exact))).bind hfinish
  · exact (Parallel.rewrite _ (covers_num _)).returning (covers_num _)

theorem multiplyWith_parallel {shortcut? : Number → Number → Work (Option Number)}
    (hshortcut : ∀ a b, Parallel k Eq (shortcut? a b) (shortcut? a b)) (a b : Number) :
    Parallel k k.Same (multiplyWith shortcut? a b) (multiplyWith shortcut? a b) := by
  have hnum (n : Number) : Parallel k k.Same (pure (.num n)) (pure (.num n)) :=
    .pure (.refl (covers_num n))
  unfold multiplyWith
  refine .withOptions fun o p ho => ?_
  refine .ite ((Parallel.rewrite _ (covers_num _)).andThen (hnum _)) ?_
  refine (estimateProduct?_parallel a b).bind ?_
  rintro estimate _ ⟨rfl, hestimate⟩
  cases estimate with
  | some e => exact .pure (.refl (hestimate e rfl))
  | none =>
    refine .ite ?_ (.ite ((Parallel.rewrite _ (covers_num _)).andThen (hnum _)) ?_)
    · refine (calculatorMessage_parallel _ _ _ _).bind fun message message' hmessage => ?_
      exact (Parallel.explain _ (covers_num _) hmessage).andThen (hnum _)
    · refine (hshortcut a b).bind ?_
      rintro result _ rfl
      cases result with
      | some n => exact hnum n
      | none => exact multiplyAtLength_parallel a b

theorem multiplyPlainly_parallel (a b : Number) :
    Parallel k k.Same (multiplyPlainly a b) (multiplyPlainly a b) :=
  multiplyWith_parallel (fun _ _ => .pure rfl) a b

theorem multiply_parallel (quick : Bool) (a b : Number) :
    Parallel k k.Same (multiply quick a b) (multiply quick a b) := by
  refine .withOptions fun o p _ => ?_
  exact .ite (multiplyWith_parallel (roundAndAdjust?_parallel multiplyPlainly_parallel) a b)
    (multiplyPlainly_parallel a b)

/-! ### Rules of calculus -/

section

variable (hk : k.calculus)

include hk

theorem Likeness.same_of_calculus (e : Expr) : k.Same e e :=
  .refl (covers_of_calculus hk e)

theorem Work.differentiate_parallel (x : String) (e : Expr) :
    Parallel k k.Same (Work.differentiate x e) (Work.differentiate x e) := by
  have hsame := Likeness.same_of_calculus hk
  unfold Work.differentiate
  refine .ite ((Parallel.record hk _).andThen (.pure (hsame _))) ?_
  split
  · exact (Parallel.record hk _).andThen (.pure (hsame _))
  · exact (Parallel.report _ _).andThen ((Parallel.record hk _).andThen (.pure (hsame _)))

theorem Work.integrate_parallel (x : String) (e : Expr) :
    Parallel k k.Same (Work.integrate x e) (Work.integrate x e) := by
  have hsame := Likeness.same_of_calculus hk
  unfold Work.integrate
  split
  · exact (Parallel.record hk _).andThen (.pure (hsame _))
  · exact (Parallel.report _ _).andThen ((Parallel.record hk _).andThen (.pure (hsame _)))

theorem Simplify.differentiateTimes_parallel (x : String) (times : Nat) (e : Expr) :
    Parallel k k.Same (differentiateTimes x times e) (differentiateTimes x times e) := by
  induction times generalizing e with
  | zero => exact .pure (Likeness.same_of_calculus hk e)
  | succ times ih =>
    refine (Work.differentiate_parallel hk x e).bind ?_
    rintro e _ ⟨rfl, -⟩
    exact ih e

theorem Simplify.differentiateBy_parallel (vars : List (String × Nat)) (e : Expr) :
    Parallel k k.Same (differentiateBy vars e) (differentiateBy vars e) := by
  induction vars generalizing e with
  | nil => exact .pure (Likeness.same_of_calculus hk e)
  | cons var rest ih =>
    refine (Simplify.differentiateTimes_parallel hk var.1 var.2 e).bind ?_
    rintro e _ ⟨rfl, -⟩
    exact ih e

end

/-! ### Nodes whose parts are simplified in parallel -/

namespace Simplify

theorem literal_parallel (n : Number) : Parallel k k.Same (literal n) (literal n) := by
  unfold literal
  refine .withOptions fun o p _ => ?_
  refine .iteBind (.ite (.rewrite _ (covers_num _)) (.pure rfl)) ?_
  exact .pure (.refl (covers_num _))

/-- A symbol of the vocabulary has the same value on both sheets. -/
theorem symbol_parallel {name : String} (hname : k.Covers (.sym name)) :
    Parallel k k.Same (symbol name) (symbol name) := by
  refine .look fun s t hst => ?_
  rw [← hst.bindings.value name hname.here]
  cases hvalue : s.bindings.value? name with
  | none => exact .pure (.refl hname)
  | some value =>
    have hcovers := hst.bindings.covers name hname.here value hvalue
    exact (Parallel.changeIfPresent _ hcovers).returning hcovers

theorem become_parallel (current : Expr) {result : Expr} (h : k.Covers result) :
    Parallel k Eq (become current result) (become current result) :=
  .ite (.rewrite current h) (.pure rfl)

section

variable {simplify : Simplifier}
  (hs : ∀ e, k.Covers e → Parallel k k.Same (simplify e) (simplify e))

include hs

theorem blockFrom_parallel (id index count : Nat) :
    Parallel k k.SameList (blockFrom simplify id index count) (blockFrom simplify id index count) := by
  induction count generalizing index with
  | zero => exact .pure (.refl fun _ he => nomatch he)
  | succ count ih =>
    refine .look fun s t hst => ?_
    obtain ⟨heq, hcovers⟩ := hst.blockItem? id index
    rw [← heq]
    cases hitem : s.blockItem? id index with
    | none => exact ih _
    | some tree =>
      refine (hs tree (hcovers tree hitem)).bind ?_
      rintro simplified _ ⟨rfl, hsimplified⟩
      refine (ih _).bind ?_
      rintro rest _ ⟨rfl, hrest⟩
      exact .pure (.refl (List.forall_mem_cons.2 ⟨hsimplified, hrest⟩))

theorem block_parallel (id : Nat) :
    Parallel k k.SameList (block simplify id) (block simplify id) := by
  refine .look fun s t hst => ?_
  rw [(hst.block id).1]
  exact blockFrom_parallel hs id 0 _

theorem siblings_parallel {trees : List Expr} (h : ∀ e ∈ trees, k.Covers e) :
    Parallel k k.SameList (siblings simplify trees) (siblings simplify trees) :=
  .block h (block_parallel hs)

theorem call_parallel {f : Signature} {functional subscript superscript : List Expr}
    (h : k.Covers (.call f functional subscript superscript)) :
    Parallel k k.Same (call simplify f functional subscript superscript)
      (call simplify f functional subscript superscript) := by
  unfold call
  extract_lets unsimplified
  refine Parallel.bind (?_ : Parallel k (fun p q => p = q ∧ (∀ e ∈ p.1, k.Covers e) ∧
    (∀ e ∈ p.2.1, k.Covers e) ∧ ∀ e ∈ p.2.2, k.Covers e) _ _) ?_
  · refine .block h.functional fun first => .block h.subscript fun second =>
      .block h.superscript fun third => ?_
    refine (block_parallel hs first).bind ?_
    rintro functional _ ⟨rfl, hfunctional⟩
    refine (block_parallel hs second).bind ?_
    rintro subscript _ ⟨rfl, hsubscript⟩
    refine (block_parallel hs third).bind ?_
    rintro superscript _ ⟨rfl, hsuperscript⟩
    exact .pure ⟨rfl, hfunctional, hsubscript, hsuperscript⟩
  · rintro ⟨functional, subscript, superscript⟩ _ ⟨rfl, hfunctional, hsubscript, hsuperscript⟩
    dsimp -zeta only
    extract_lets simplified finish
    have hfinish : ∀ result result', k.Same result result' →
        Parallel k k.Same (finish result) (finish result') := by
      rintro result _ ⟨rfl, hresult⟩
      refine .look fun s t hst => ?_
      rw [hst.tree]
      refine .ite ((Parallel.rewrite _ hresult).returning hresult) ?_
      exact .iteBind (.ite (.rewrite _ hresult) (.pure rfl)) (.pure (.refl hresult))
    refine .look fun s t hst => ?_
    have hcompute : computeCall? s.bindings f functional subscript superscript =
        computeCall? t.bindings f functional subscript superscript := by
      unfold computeCall?
      rw [hst.bindings.function?]
    rw [hcompute]
    split
    · exact (Parallel.pure (.refl (covers_num _))).bind hfinish
    · exact (Parallel.undefined _ _ _).bind hfinish
    · exact (Parallel.pure (.refl (covers_call hfunctional hsubscript hsuperscript))).bind hfinish

omit hs in
theorem addAll_parallel (total : Number) (numbers : List Number) :
    Parallel k Eq (addAll total numbers) (addAll total numbers) := by
  induction numbers generalizing total with
  | nil => exact .pure rfl
  | cons n rest ih =>
    refine (add_parallel total n).bind ?_
    rintro total _ rfl
    exact ih total

omit hs in
theorem addNumbers_parallel {current : Expr} (hcurrent : k.Covers current) (numbers : List Number) :
    Parallel k (fun p q => p = q ∧ k.Covers p.2) (addNumbers current numbers)
      (addNumbers current numbers) := by
  unfold addNumbers
  split
  · exact .pure ⟨rfl, hcurrent⟩
  · exact .pure ⟨rfl, hcurrent⟩
  · refine .block (List.forall_mem_singleton.2 hcurrent) fun id => ?_
    refine (addAll_parallel _ _).bind ?_
    rintro total _ rfl
    refine .look fun s t hst => ?_
    obtain ⟨heq, hcovers⟩ := hst.getD_blockItem? id 0 hcurrent
    exact .pure ⟨by rw [heq], hcovers⟩

theorem sum_parallel {terms : List Expr} (h : k.Covers (.sum terms)) :
    Parallel k k.Same (sum simplify terms) (sum simplify terms) := by
  unfold sum
  refine (siblings_parallel hs h.terms).bind ?_
  rintro simplified _ ⟨rfl, hsimplified⟩
  extract_lets opened numbers others combine
  have hopened : ∀ e ∈ opened, k.Covers e := by
    unfold opened
    split
    · exact everywhere_openTerms hsimplified
    · exact hsimplified
  have hothers : ∀ e ∈ others, k.Covers e :=
    fun e he => hopened e (List.mem_of_mem_filter he)
  refine .iteBind (.ite (.rewrite _ (covers_sum hopened)) (.pure rfl)) ?_
  refine (addNumbers_parallel (covers_sum hopened) numbers).bind ?_
  rintro ⟨total, current⟩ _ ⟨rfl, hcurrent⟩
  refine .ite ((become_parallel _ (covers_num _)).returning (covers_num _)) ?_
  refine .ite ?_ (.pure (.refl hcurrent))
  have hkept : k.Covers (Expr.sumOf
      ((total.filter (!·.isZero)).toList.map Expr.num ++ combineLikeTerms others)) :=
    covers_sumOf (List.forall_mem_append.2 ⟨covers_numbers _, covers_combineLikeTerms hothers⟩)
  exact (Parallel.rewrite _ hkept).returning hkept

omit hs in
theorem multiplyAll_parallel {result : Expr} (hresult : k.Covers result) (numbers : List Number) :
    Parallel k (fun p q => p = q ∧ k.Covers p.1 ∧ ∀ e ∈ p.2, k.Covers e)
      (multiplyAll result numbers) (multiplyAll result numbers) := by
  induction numbers generalizing result with
  | nil =>
    cases result with
    | _ => exact .pure ⟨rfl, hresult, fun _ he => nomatch he⟩
  | cons n rest ih =>
    cases result with
    | num total =>
      refine (multiply_parallel true total n).bind ?_
      rintro result _ ⟨rfl, hresult⟩
      exact ih hresult
    | _ => exact .pure ⟨rfl, hresult, covers_numbers _⟩

omit hs in
theorem multiplyNumbers_parallel {current : Expr} (hcurrent : k.Covers current)
    (numbers : List Number) {others : List Expr} (hothers : ∀ e ∈ others, k.Covers e) :
    Parallel k k.Same (multiplyNumbers current numbers others)
      (multiplyNumbers current numbers others) := by
  have hfirst : k.Covers ((numbers.head?.map Expr.num).getD 1) := by
    cases numbers.head? with
    | none => exact covers_num _
    | some n => exact covers_num n
  unfold multiplyNumbers
  refine Parallel.bind (?_ : Parallel k (fun p q => p = q ∧ k.Covers p.1 ∧
    (∀ e ∈ p.2.1, k.Covers e) ∧ k.Covers p.2.2) _ _) ?_
  · refine .block (List.forall_mem_singleton.2 hcurrent) fun id => ?_
    refine (multiplyAll_parallel hfirst numbers.tail).bind ?_
    rintro ⟨result, leftover⟩ _ ⟨rfl, hresult, hleftover⟩
    refine .look fun s t hst => ?_
    obtain ⟨heq, hcovers⟩ := hst.getD_blockItem? id 0 hcurrent
    exact .pure ⟨by rw [heq], hresult, hleftover, hcovers⟩
  · rintro ⟨result, leftover, inTree⟩ _ ⟨rfl, hresult, hleftover, -⟩
    have hbuilt : k.Covers (Expr.buildProd (result :: leftover ++ others)) :=
      covers_buildProd (List.forall_mem_append.2 ⟨List.forall_mem_cons.2 ⟨hresult, hleftover⟩, hothers⟩)
    exact .ite (.pure (.refl hresult)) ((become_parallel _ hbuilt).returning hbuilt)

theorem factors_parallel {current : Expr} (hcurrent : k.Covers current) {kept : List Expr}
    (hkept : ∀ e ∈ kept, k.Covers e) :
    Parallel k k.Same (factors simplify current kept) (factors simplify current kept) := by
  unfold factors
  split
  · rename_i hsum
    have hdistributed := covers_distributed hkept hsum
    exact (Parallel.rewrite _ hdistributed).andThen (hs _ hdistributed)
  · extract_lets sorted numbers others result
    have hothers : ∀ e ∈ others, k.Covers e :=
      fun e he => covers_canonicalSort hkept e (List.mem_of_mem_filter he)
    have hresult : k.Covers result :=
      covers_buildProd (List.forall_mem_append.2 ⟨covers_numbers numbers, hothers⟩)
    refine .ite ((become_parallel _ hresult).returning hresult) ?_
    exact multiplyNumbers_parallel hcurrent numbers hothers

theorem product_parallel {parts : List Expr} (h : k.Covers (.prod parts)) :
    Parallel k k.Same (product simplify parts) (product simplify parts) := by
  have hvalue (part : Expr) {result : Expr} (hresult : k.Covers result) :
      Parallel k k.Same (do Work.change part result; pure result)
        (do Work.change part result; pure result) :=
    (Parallel.rewrite part hresult).returning hresult
  unfold product
  refine .ite (hvalue _ (covers_num _)) ?_
  refine (siblings_parallel hs h.factors).bind ?_
  rintro simplified _ ⟨rfl, hsimplified⟩
  have hkept : ∀ e ∈ simplified.filter (!·.isValue 1), k.Covers e :=
    fun e he => hsimplified e (List.mem_of_mem_filter he)
  extract_lets inTree
  refine .ite (hvalue _ (covers_num _)) ?_
  split
  · exact hvalue _ (covers_num _)
  · rename_i only honly
    exact hvalue _ (hkept only (by rw [honly]; exact List.mem_singleton_self only))
  · have hprod := covers_prod hkept
    exact (become_parallel _ hprod).andThen (factors_parallel hs hprod hkept)

theorem body_parallel (hk : k.calculus) (bound : List String) (e : Expr) :
    Parallel k k.Same (body simplify bound e) (body simplify bound e) := by
  unfold body
  refine .look fun s t hst => ?_
  rw [hst.bindings.eq hk]
  have hcovers := covers_of_calculus (v := k.toVocabulary) hk
  refine (Parallel.aside _ (.refl hk _) (hs _ (hcovers _))).bind ?_
  rintro ⟨simplified, side⟩ ⟨_, side'⟩ ⟨⟨rfl, -⟩, hside⟩
  exact (Parallel.absorb hk hside).returning (hcovers _)

theorem derivative_parallel (hk : k.calculus) (e : Expr) (vars : List (String × Nat)) :
    Parallel k k.Same (derivative simplify e vars) (derivative simplify e vars) := by
  have hcovers := covers_of_calculus (v := k.toVocabulary) hk
  unfold derivative
  extract_lets inTree names
  refine (body_parallel hs hk _ e).bind ?_
  rintro inner _ ⟨rfl, -⟩
  extract_lets unevaluated
  refine (differentiateBy_parallel hk vars inner).bind ?_
  rintro result _ ⟨rfl, -⟩
  refine .ite ?_ ?_
  · refine (Parallel.report _ _).andThen ((become_parallel _ (hcovers _)).andThen ?_)
    exact .pure (.refl (hcovers _))
  · refine (Parallel.record hk _).andThen ?_
    refine (Parallel.wording _ .refl).bind fun message message' hmessage => ?_
    exact (Parallel.explain _ (hcovers _) hmessage).andThen (hs _ (hcovers _))

theorem integralBounds_parallel {lower upper : Option Expr}
    (hbounds : ∀ e ∈ lower.toList ++ upper.toList, k.Covers e) :
    Parallel k Eq (integralBounds simplify lower upper) (integralBounds simplify lower upper) := by
  refine (siblings_parallel hs hbounds).bind ?_
  rintro simplified _ ⟨rfl, -⟩
  exact .pure rfl

omit hs in
theorem unsolvedIntegral_parallel (hk : k.calculus) (reason : String) (inTree current : Expr) :
    Parallel k k.Same (unsolvedIntegral reason inTree current)
      (unsolvedIntegral reason inTree current) := by
  have hcurrent : k.Covers current := covers_of_calculus hk current
  refine (Parallel.report _ _).andThen ((become_parallel _ hcurrent).andThen ?_)
  exact .pure (.refl hcurrent)

theorem indefiniteIntegral_parallel (hk : k.calculus) (var : String) (inTree antiderivative : Expr) :
    Parallel k k.Same (indefiniteIntegral simplify var inTree antiderivative)
      (indefiniteIntegral simplify var inTree antiderivative) := by
  have hresult : k.Covers antiderivative := covers_of_calculus hk _
  unfold indefiniteIntegral
  refine (Parallel.record hk _).andThen ?_
  refine (Parallel.wording _ .refl).bind fun message message' hmessage => ?_
  exact (Parallel.explain _ hresult hmessage).andThen (hs _ hresult)

theorem definiteIntegral_parallel (hk : k.calculus) (var : String)
    (lower upper inTree antiderivative : Expr) :
    Parallel k k.Same (definiteIntegral simplify var lower upper inTree antiderivative)
      (definiteIntegral simplify var lower upper inTree antiderivative) := by
  unfold definiteIntegral
  extract_lets difference
  have hdifference : k.Covers difference := covers_of_calculus hk _
  refine (Parallel.record hk _).andThen ?_
  refine (Parallel.written _).bind fun upper upper' hupper => ?_
  refine (Parallel.written _).bind fun lower lower' hlower => ?_
  refine (Parallel.wording _ fun hk => ?_).bind fun message message' hmessage => ?_
  · rw [hupper hk, hlower hk]
    exact ⟨rfl, rfl, rfl⟩
  · exact (Parallel.explain _ hdifference hmessage).andThen (hs _ hdifference)

theorem integral_parallel (hk : k.calculus) (e : Expr) (var : String) (lower upper : Option Expr) :
    Parallel k k.Same (integral simplify e var lower upper) (integral simplify e var lower upper) := by
  unfold integral
  refine (body_parallel hs hk _ e).bind ?_
  rintro inner _ ⟨rfl, -⟩
  refine (integralBounds_parallel hs fun e _ => covers_of_calculus hk e).bind ?_
  rintro ⟨lower, upper⟩ _ rfl
  dsimp only
  refine (Work.integrate_parallel hk var inner).bind ?_
  rintro antiderivative _ ⟨rfl, -⟩
  split
  · exact .ite (indefiniteIntegral_parallel hs hk _ _ _) (unsolvedIntegral_parallel hk _ _ _)
  · exact .ite (definiteIntegral_parallel hs hk _ _ _ _ _) (unsolvedIntegral_parallel hk _ _ _)

omit hs in
theorem overflow_parallel (words : OverflowWords) {current : Expr} (hcurrent : k.Covers current) :
    Parallel k k.Same (overflow words current) (overflow words current) := by
  have hvalue (key sign : String) (n : Number) :
      Parallel k k.Same (overflowAs words key sign current (.num n))
        (overflowAs words key sign current (.num n)) := by
    refine (Parallel.wording _ .refl).bind fun message message' hmessage => ?_
    exact (Parallel.estimate _ (covers_num n) hmessage).returning (covers_num n)
  unfold overflow
  refine .withOptions fun o p _ => ?_
  rw [Options.presentedBy_overflow]
  cases o.overflow with
  | infinity => exact hvalue _ _ _
  | zero => exact hvalue _ _ _
  | symbolic =>
    refine (Parallel.written _).bind fun text text' htext => ?_
    refine .remarkOn _ (fun hk => ?_) (.pure (.refl hcurrent))
    rw [htext hk]
    exact ⟨rfl, rfl, rfl⟩

omit hs in
theorem powerOfNumbers_parallel {current : Expr} (hcurrent : k.Covers current)
    (base exponent : Number) {value : Expr → Work Expr}
    (hvalue : ∀ n, Parallel k k.Same (value (.num n)) (value (.num n))) :
    Parallel k k.Same (powerOfNumbers current base exponent value)
      (powerOfNumbers current base exponent value) := by
  unfold powerOfNumbers
  split
  · refine .ite ?_ (hvalue _)
    exact (Parallel.written _).bind fun _ _ _ => .undefined _ _ _
  · exact overflow_parallel _ hcurrent

omit hs in
theorem zeroPowerZero_parallel (current : Expr) :
    Parallel k k.Same (zeroPowerZero current) (zeroPowerZero current) := by
  unfold zeroPowerZero
  refine .withOptions fun o p _ => ?_
  rw [Options.presentedBy_zeroPowerZero]
  cases o.zeroPowerZero with
  | one =>
    exact .explainOn _ .refl current (covers_num _)
  | zero =>
    exact .explainOn _ .refl current (covers_num _)
  | undefined =>
    exact (Parallel.wording _ .refl).bind fun _ _ _ => .undefined _ _ _

omit hs in
theorem zeroPowerSymbolic_parallel (current : Expr) {symbolic : Expr} (h : k.Covers symbolic) :
    Parallel k k.Same (zeroPowerSymbolic current symbolic) (zeroPowerSymbolic current symbolic) := by
  refine (Parallel.written _).bind fun text text' htext => (Parallel.report _ _).andThen ?_
  refine .explainOn _ (fun hk => ?_) current h
  rw [htext hk]
  exact ⟨rfl, rfl, rfl⟩

/-- Work on the side under the bindings of the sheets. -/
theorem preview_parallel {e : Expr} (he : k.Covers e) {f : Expr × Sheet → Work Expr}
    (hf : ∀ preview side side', k.Covers preview →
      Parallel k k.Same (f (preview, side)) (f (preview, side'))) :
    Parallel k k.Same
      (do
        let s ← get
        let p ← Work.onTheSide e s.bindings (simplify e)
        f p)
      (do
        let s ← get
        let p ← Work.onTheSide e s.bindings (simplify e)
        f p) := by
  refine .look fun s t hst => (Parallel.aside e hst.bindings (hs e he)).bind ?_
  rintro ⟨preview, side⟩ ⟨_, side'⟩ ⟨⟨rfl, hpreview⟩, -⟩
  exact hf preview side side' hpreview

theorem zeroBase_parallel {base exponent : Expr} (hbase : k.Covers base)
    (hexponent : k.Covers exponent) :
    Parallel k k.Same (zeroBase simplify base exponent) (zeroBase simplify base exponent) := by
  unfold zeroBase
  extract_lets current
  refine preview_parallel hs hexponent fun preview side side' hpreview => ?_
  have hsymbolic := zeroPowerSymbolic_parallel current (covers_pow hbase hpreview)
  dsimp only
  split
  · refine .ite (zeroPowerZero_parallel _) (.ite ?_ (.ite ?_ hsymbolic))
    · exact .explainOn _ .refl current (covers_num _)
    · exact (Parallel.wording _ .refl).bind fun _ _ _ => .undefined _ _ _
  · exact hsymbolic

theorem oneBase_parallel (base : Expr) {exponent : Expr} (hexponent : k.Covers exponent) :
    Parallel k k.Same (oneBase simplify base exponent) (oneBase simplify base exponent) := by
  refine (hs exponent hexponent).bind ?_
  rintro exponent _ ⟨rfl, -⟩
  refine (Parallel.written _).bind fun text text' htext => ?_
  refine (Parallel.written _).bind fun power power' hpower => ?_
  refine .explainOn _ (fun hk => ?_) (.pow base exponent) (covers_num _)
  rw [htext hk, hpower hk]
  exact ⟨rfl, rfl, rfl⟩

omit hs in
theorem minusOnePower_parallel (current : Expr) (exponent : Number) :
    Parallel k k.Same (minusOnePower current exponent) (minusOnePower current exponent) := by
  unfold minusOnePower
  extract_lets even
  have hresult : k.Covers (if even = true then 1 else Expr.minusOne) := by
    split
    · exact covers_num _
    · exact covers_num _
  exact .explainOn _ .refl current hresult

theorem root_parallel {base exponent : Expr} (hbase : k.Covers base) (hexponent : k.Covers exponent) :
    Parallel k k.Same (root simplify base exponent) (root simplify base exponent) := by
  unfold root
  extract_lets current finish
  have hfinish {result : Expr} (h : k.Covers result) :
      Parallel k k.Same (finish result) (finish result) :=
    (Parallel.rewrite _ h).returning h
  refine preview_parallel hs hexponent fun simplified side side' hsimplified => ?_
  dsimp only
  split
  · exact powerOfNumbers_parallel (covers_pow hbase hexponent) _ _ fun n => hfinish (covers_num n)
  · exact hfinish (covers_pow hbase hsimplified)

omit hs in
theorem estimatePower_parallel (current : Expr) (base exponent : Number) (digits : Nat) :
    Parallel k k.Same (estimatePower current base exponent digits)
      (estimatePower current base exponent digits) := by
  refine (Parallel.report _ _).andThen ((Parallel.remark (.refl _) false).andThen ?_)
  refine (Parallel.remark (.refl _) false).andThen ((Parallel.remark (.refl _) false).andThen ?_)
  refine (Parallel.written _).bind fun text text' htext => ?_
  refine (Parallel.estimate _ (covers_orderOfMagnitude _ _) fun hk => by rw [htext hk]).andThen ?_
  exact .pure (.refl (covers_orderOfMagnitude _ _))

theorem numericPower_parallel {current : Expr} (hcurrent : k.Covers current)
    (base exponent : Number) :
    Parallel k k.Same (numericPower simplify current base exponent)
      (numericPower simplify current base exponent) := by
  unfold numericPower
  refine .withOptions fun o p _ => ?_
  refine .ite (overflow_parallel _ hcurrent) ?_
  rw [Options.presentedBy_magnitudeThreshold, Options.expansion?_presentedBy]
  split
  · exact estimatePower_parallel _ _ _ _
  · refine .ite (powerOfNumbers_parallel hcurrent _ _ fun n => ?_) ?_
    · refine (calculatorMessage_parallel _ _ _ _).bind fun message message' hmessage => ?_
      exact (Parallel.explain _ (covers_num n) hmessage).returning (covers_num n)
    · split
      · have hexpanded (count : Nat) : k.Covers (.prod (List.replicate count (.num base))) :=
          covers_prod fun e he => (List.mem_replicate.1 he).2 ▸ covers_num base
        exact (Parallel.rewrite _ (hexpanded _)).andThen (hs _ (hexpanded _))
      · refine powerOfNumbers_parallel hcurrent _ _ fun n => ?_
        exact (Parallel.changeIfPresent _ (covers_num n)).returning (covers_num n)

theorem power_parallel {base exponent : Expr} (h : k.Covers (.pow base exponent)) :
    Parallel k k.Same (power simplify base exponent) (power simplify base exponent) := by
  unfold power
  refine Parallel.bind (?_ : Parallel k (fun p q => p = q ∧ k.Covers p.1 ∧ k.Covers p.2) _ _) ?_
  · refine .block (List.forall_mem_singleton.2 h.exponent) fun id => ?_
    refine (hs base h.base).bind ?_
    rintro base _ ⟨rfl, hbase⟩
    refine .look fun s t hst => ?_
    obtain ⟨heq, hcovers⟩ := hst.getD_blockItem? id 0 h.exponent
    exact .pure ⟨by rw [heq], hbase, hcovers⟩
  · rintro ⟨base, exponent⟩ _ ⟨rfl, hbase, hexponent⟩
    refine .ite (zeroBase_parallel hs hbase hexponent) (.ite (oneBase_parallel hs _ hexponent) ?_)
    refine .ite (root_parallel hs hbase hexponent) ((hs _ hexponent).bind ?_)
    rintro exponent _ ⟨rfl, hexponent⟩
    dsimp only
    split
    · refine .ite (minusOnePower_parallel _ _) ?_
      exact numericPower_parallel hs (covers_pow hbase hexponent) _ _
    · have hbuilt := covers_buildPow hbase hexponent
      exact (become_parallel _ hbuilt).returning hbuilt

theorem node_parallel {e : Expr} (h : k.Covers e) :
    Parallel k k.Same (node simplify e) (node simplify e) := by
  cases e with
  | num n => exact literal_parallel n
  | sym name => exact symbol_parallel h
  | sum terms => exact sum_parallel hs h
  | prod parts => exact product_parallel hs h
  | pow base exponent => exact power_parallel hs h
  | call f functional subscript superscript => exact call_parallel hs h
  | deriv e vars => exact derivative_parallel hs h.here e vars
  | integral e var lower upper => exact integral_parallel hs h.here e var lower upper

end

end Simplify

/-- Simplification goes on in parallel on sheets that are alike, at every depth. -/
theorem Expr.simplifyAt_parallel (depth : Nat) {e : Expr} (h : k.Covers e) :
    Parallel k k.Same (Expr.simplifyAt depth e) (Expr.simplifyAt depth e) := by
  induction depth generalizing e with
  | zero => exact .exhausted
  | succ depth ih => exact Simplify.node_parallel (fun _ => ih) h

theorem Expr.simplify_parallel {e : Expr} (h : k.Covers e) :
    Parallel k k.Same (Expr.simplify e) (Expr.simplify e) :=
  Expr.simplifyAt_parallel Expr.maxDepth h

/-! ### Solutions -/

namespace Work

/-- A solution after the bound symbols have been replaced. -/
def settle (simplify : Simplifier) (e : Expr) : Work Expr := do
  let result ← tryCatch (do
    match ← simplify e with
    | .num n => return .num n.normalize
    | result => return result) recover
  if result.hasCalculus then
    report .partly "symbolic_calculus_remaining"
  return result

theorem solveWith_eq (simplify : Simplifier) :
    solveWith simplify = substituteValues >>= settle simplify :=
  rfl

theorem answers_joinValues (texts : List String) : Answers (joinValues texts) := by
  refine .look fun s => (answers_ask _).bind fun pair => (answers_ask _).bind fun many => ?_
  split <;> exact answers_pure _

theorem undefinedMessage_parallel (expression : Expr) :
    Parallel k k.Says (undefinedMessage expression) (undefinedMessage expression) := by
  unfold undefinedMessage
  refine (Parallel.written _).bind fun text text' htext => ?_
  split
  · refine .wording _ fun hk => ?_
    rw [htext hk]
    exact ⟨rfl, rfl, rfl⟩
  · refine .wording _ fun hk => ?_
    rw [htext hk]
    exact ⟨rfl, rfl, rfl⟩

theorem recover_parallel (reason reason' : String) (e : Expr) :
    Parallel k Eq (recover (.undefined reason e)) (recover (.undefined reason' e)) := by
  refine (Parallel.report _ _).andThen ?_
  refine (undefinedMessage_parallel e).bind fun text text' htext => ?_
  exact (Parallel.remark htext false).andThen (.look fun s t hst => .pure hst.tree)

theorem settle_parallel {simplify : Simplifier}
    (hs : ∀ e, k.Covers e → Parallel k k.Same (simplify e) (simplify e)) {e : Expr}
    (he : k.Covers e) : Parallel k Eq (settle simplify e) (settle simplify e) := by
  unfold settle
  refine Parallel.bind (?_ : Parallel k Eq _ _) ?_
  · refine .rescue ((hs e he).bind ?_) recover_parallel (fun _ _ => ⟨rfl, rfl⟩) ⟨rfl, rfl⟩
    rintro result _ ⟨rfl, -⟩
    split
    · exact .pure rfl
    · exact .pure rfl
  · rintro result _ rfl
    exact .iteBind (.ite (.report _ _) (.pure rfl)) (.pure rfl)

/-! ### Solutions do not end at a value outside of its domain -/

variable {α β : Type}

/-- Work that never ends at a value outside of its domain. -/
def Recovered (w : Work α) : Prop :=
  ∀ s reason e, (exec w s).1 ≠ .error (.undefined reason e)

theorem recovered_pure (a : α) : Recovered (pure a : Work α) :=
  fun _ _ _ h => nomatch h

theorem recovered_modify (f : Sheet → Sheet) : Recovered (modify f : Work Unit) :=
  fun _ _ _ h => nomatch h

theorem recovered_changeWith (c : Change) : Recovered (changeWith c) := by
  intro s reason e h
  rw [exec_changeWith] at h
  split at h
  · cases h
  · split at h <;> cases h

theorem Recovered.bind {w : Work α} {f : α → Work β} (hw : Recovered w) (hf : ∀ a, Recovered (f a)) :
    Recovered (w >>= f) := by
  intro s reason e h
  rcases hexec : exec w s with ⟨fault | a, t⟩
  · rw [exec_bind_error hexec] at h
    cases h
    exact hw s reason e (by rw [hexec])
  · rw [exec_bind_ok hexec] at h
    exact hf a t reason e h

theorem Recovered.look {f : Sheet → Work α} (hf : ∀ s, Recovered (f s)) : Recovered (get >>= f) :=
  fun s => hf s s

theorem Answers.recovered {w : Work String} (hw : Answers w) : Recovered w := by
  intro s reason e h
  obtain ⟨text, missing, hexec⟩ := hw s
  rw [hexec] at h
  cases h

theorem answers_undefinedMessage (e : Expr) : Answers (undefinedMessage e) := by
  refine .look fun s => ?_
  cases e <;> exact answers_wording _ _ _ _

theorem recovered_recover (fault : Fault) : Recovered (recover fault) := by
  cases fault with
  | undefined reason e =>
    have hmessage := (answers_undefinedMessage e).recovered
    refine (recovered_modify _).bind fun _ => hmessage.bind fun text => ?_
    exact (recovered_modify _).bind fun _ => .look fun _ => recovered_pure _
  | absent part tree => exact fun _ _ _ h => nomatch h
  | exhausted => exact fun _ _ _ h => nomatch h

theorem recovered_settle (simplify : Simplifier) (e : Expr) : Recovered (settle simplify e) := by
  unfold settle
  refine Recovered.bind ?_ fun result => ?_
  · intro s reason e h
    rw [exec_tryCatch] at h
    split at h
    · cases h
    · exact recovered_recover _ _ _ _ h
  · split
    · exact (recovered_modify _).bind fun _ => recovered_pure _
    · exact recovered_pure _

theorem recovered_substituteValues : Recovered substituteValues := by
  refine .look fun s => ?_
  dsimp only
  split
  · refine (answers_joinValues _).recovered.bind fun listed => ?_
    refine (answers_wording _ _ _ _).recovered.bind fun text => ?_
    refine (recovered_modify _).bind fun _ => ?_
    exact (recovered_changeWith _).bind fun _ => recovered_pure _
  · exact recovered_pure _

/-- Where no value outside of its domain ends the work, its ends are equal. -/
theorem Agree.eq {w v : Work Expr} {before before' : Array Entry} {s t : Sheet}
    (h : Agree k Eq before before' (exec w s) (exec v t)) (hw : Recovered w) :
    (exec w s).1 = (exec v t).1 := by
  obtain ⟨hend, -⟩ := h
  have hdefined := hw s
  generalize (exec w s).1 = result at hend hdefined
  generalize (exec v t).1 = result' at hend
  cases hend with
  | ok h => rw [h]
  | undefined reason reason' e => exact (hdefined reason e rfl).elim
  | absent part tree => rfl
  | exhausted => rfl

end Work

end Workings

import Mathlib.Data.Prod.Lex
import Workings.Proofs.Preservation
import Workings.Proofs.Simultaneous

/-!
# Solutions that end

Simplifying an expression is not a recursion on its parts. A product that is distributed is simplified
again, and a part is simplified as the changes for its siblings have left it, which may be larger than it
was. Over the natural numbers it ends nevertheless, if no symbol is bound. With every symbol counted as
two, an expression never gets larger (`Expr.bulk`), and each term of a distributed product is smaller than
the product. A part can only be as large as the whole if all of its siblings are as large as one, so that
there is nothing in them but `0` and `1`: these are replaced by numbers, which leaves no more nodes in
other expressions than there were (`Expr.nodes_replace_le`).

Calls are left out, and so are negative numbers and powers of anything but ten. A negative number can be
taken for the negative of what is looked for, and a number in a power can be taken apart there by the changes
for a product elsewhere: in neither case do the measures bound what becomes of the tree. The powers of ten
are those that a long multiplication leaves behind. For terms in normal form and for sums of integers, with
negative numbers and under the default options, see `solveWith_inReach`.
-/

namespace Workings

open Workings.Expr (Everywhere Plain Regular)
open Work (Meets Reaches exec)

namespace Expr

/-! ### Nodes -/

mutual

/-- The number of nodes of a polynomial. What is neither a sum nor a product counts as one. -/
def nodes : Expr → ℕ
  | .sum terms => nodesAll terms + 1
  | .prod factors => nodesAll factors + 1
  | _ => 1

/-- The number of nodes of several polynomials. -/
def nodesAll : List Expr → ℕ
  | [] => 0
  | e :: es => nodes e + nodesAll es

end

theorem nodesAll_eq (es : List Expr) : nodesAll es = (es.map nodes).sum := by
  induction es with
  | nil => rfl
  | cons e es ih => rw [nodesAll, ih, List.map_cons, List.sum_cons]

theorem nodes_sum (terms : List Expr) : (sum terms).nodes = (terms.map nodes).sum + 1 := by
  rw [nodes, nodesAll_eq]

theorem nodes_prod (factors : List Expr) : (prod factors).nodes = (factors.map nodes).sum + 1 := by
  rw [nodes, nodesAll_eq]

theorem one_le_nodes (e : Expr) : 1 ≤ e.nodes := by
  cases e <;> simp [nodes]

theorem nodes_lt_sum {terms : List Expr} {t : Expr} (ht : t ∈ terms) : t.nodes < (sum terms).nodes := by
  rw [nodes_sum]
  exact Nat.lt_succ_of_le (List.single_le_sum (fun _ _ => Nat.zero_le _) _ (List.mem_map_of_mem ht))

theorem nodes_lt_prod {factors : List Expr} {f : Expr} (hf : f ∈ factors) :
    f.nodes < (prod factors).nodes := by
  rw [nodes_prod]
  exact Nat.lt_succ_of_le (List.single_le_sum (fun _ _ => Nat.zero_le _) _ (List.mem_map_of_mem hf))

theorem nodes_unwrap_le {node : List Expr → Expr}
    (hnode : ∀ es, (node es).nodes = (es.map nodes).sum + 1) (es : List Expr) :
    (unwrap node es).nodes ≤ (es.map nodes).sum + 1 := by
  unfold unwrap
  split
  · simp
  · rw [hnode]

theorem sum_nodes_plainFactors (factors : List Expr) :
    ((Target.plainFactors factors).map nodes).sum ≤ (factors.map nodes).sum := by
  fun_induction Target.plainFactors factors with
  | case1 => exact le_refl 0
  | case2 inner rest ih =>
    rw [List.map_append, List.sum_append, List.map_cons, List.sum_cons, nodes_prod]
    omega
  | case3 rest ih => exact ih.trans (by simp)
  | case4 term rest ih =>
    rw [List.map_cons, List.sum_cons, List.map_cons, List.sum_cons, nodes_sum, List.map_singleton,
      List.sum_singleton]
    omega
  | case5 n rest _ ih => exact ih.trans (by simp)
  | case6 n rest _ ih =>
    rw [List.map_cons, List.sum_cons, List.map_cons, List.sum_cons]
    exact Nat.add_le_add_left ih 1
  | case7 factor rest _ _ _ _ ih =>
    rw [List.map_cons, List.sum_cons, List.map_cons, List.sum_cons]
    exact Nat.add_le_add_left ih _

theorem sum_nodes_plainTerms {terms : List Expr} (h : ∀ t ∈ terms, t.Everywhere Plain) :
    ((Target.plainTerms terms).map nodes).sum ≤ (terms.map nodes).sum := by
  fun_induction Target.plainTerms terms with
  | case1 => exact le_refl 0
  | case2 inner rest ih =>
    have hrest := ih (List.forall_mem_cons.1 h).2
    rw [List.map_append, List.sum_append, List.map_cons, List.sum_cons, nodes_sum]
    omega
  | case3 factor rest ih =>
    have hrest := ih (List.forall_mem_cons.1 h).2
    rw [List.map_cons, List.sum_cons, List.map_cons, List.sum_cons, nodes_prod, List.map_singleton,
      List.sum_singleton]
    omega
  | case4 a b rest ih =>
    have hpair := (h (.prod [a, b]) List.mem_cons_self).factors
    rw [plain_not_minusOne (hpair a (by simp)), plain_not_minusOne (hpair b (by simp))]
    have hrest := ih (List.forall_mem_cons.1 h).2
    exact Nat.add_le_add_left hrest _
  | case5 term rest _ _ _ ih =>
    have hrest := ih (List.forall_mem_cons.1 h).2
    exact Nat.add_le_add_left hrest _

/-- What is left when a target is taken out has at least one node less. -/
theorem sum_nodes_leftover? {items wanted rest : List Expr}
    (hitems : ∀ e ∈ items, e.Everywhere Regular) (hwanted : ∀ e ∈ wanted, e.Everywhere Regular)
    (h : Target.leftover? items wanted = some rest) :
    (rest.map nodes).sum + 1 ≤ (items.map nodes).sum := by
  have hperm := Target.perm_of_leftover? hitems hwanted h
  have hne : wanted ≠ [] := by
    rintro rfl
    cases h
  obtain ⟨first, others, rfl⟩ := List.exists_cons_of_ne_nil hne
  rw [(hperm.map nodes).sum_eq, List.map_append, List.sum_append, List.map_cons, List.sum_cons]
  have hone := one_le_nodes first
  omega

section

variable {r : Replacement} (htarget : r.target.literal.Everywhere Plain)
  (hvalue : r.value.nodes = 1) (hnegated : r.negated.nodes = 1)

include htarget hvalue hnegated

/-- What takes the place of a node in which a leaf is put in has no more nodes: something is taken out. -/
theorem nodes_acts_le {e e' : Expr} (he : e.Everywhere Plain) (h : r.Acts e e') :
    e'.nodes ≤ e.nodes := by
  cases h with
  | literal _ => exact hvalue.le.trans (one_le_nodes e)
  | negated _ _ => exact hnegated.le.trans (one_le_nodes e)
  | @product factors rest negative hrest =>
    obtain ⟨wanted, hliteral, hleft, rfl⟩ := Target.exists_of_productRest? hrest
    rw [hliteral] at htarget
    have hless := sum_nodes_leftover?
      (Target.regular_plainFactors fun f h => (he.factors f h).mono Plain.regular)
      (Target.regular_plainFactors fun f h => (htarget.factors f h).mono Plain.regular) hleft
    have hvalue' : ((Replacement.asFactors r.value).map nodes).sum ≤ 1 := by
      unfold Replacement.asFactors
      split
      · rename_i inner heq
        rw [heq, nodes_prod] at hvalue
        omega
      · simp [hvalue]
    have hle := sum_nodes_plainFactors factors
    rw [isNegative_eq_false he.factors, isNegative_eq_false htarget.factors]
    refine (nodes_unwrap_le nodes_prod _).trans ?_
    rw [nodes_prod, List.map_append, List.sum_append, List.map_append, List.sum_append]
    change _ + _ + 0 + 1 ≤ _
    omega
  | @sum terms rest hrest =>
    obtain ⟨wanted, hliteral, hleft⟩ := Target.exists_of_sumRest? hrest
    rw [hliteral] at htarget
    have hless := sum_nodes_leftover?
      (Target.regular_plainTerms fun t h => (he.terms t h).mono Plain.regular)
      (Target.regular_plainTerms fun t h => (htarget.terms t h).mono Plain.regular) hleft
    have hvalue' : ((Replacement.asTerms r.value).map nodes).sum ≤ 1 := by
      unfold Replacement.asTerms
      split
      · rename_i inner heq
        rw [heq, nodes_sum] at hvalue
        omega
      · simp [hvalue]
    have hle := sum_nodes_plainTerms he.terms
    refine (nodes_unwrap_le nodes_sum _).trans ?_
    rw [nodes_sum, List.map_append, List.sum_append]
    omega
  | pair _ => exact hvalue.le.trans (one_le_nodes _)

/-- To put a leaf in the place of something adds no nodes. -/
theorem nodes_apply_le {e : Expr} (he : e.Everywhere Plain) : (r.apply e).nodes ≤ e.nodes := by
  induction he with
  | @intro e here parts ih =>
    cases hat : r.actsAt e with
    | true =>
      exact nodes_acts_le htarget hvalue hnegated (.intro here parts) (Replacement.acts_apply hat)
    | false =>
      cases e with
      | num n => rw [Replacement.apply_num hat]
      | sym name => rw [Replacement.apply_sym hat]
      | pow base exponent =>
        rw [Replacement.apply_pow hat]
        exact le_refl 1
      | prod factors =>
        rw [Replacement.apply_prod hat, nodes_prod, nodes_prod, List.map_map]
        exact Nat.succ_le_succ (List.sum_le_sum fun f hf => ih f hf)
      | sum terms =>
        rw [Replacement.apply_sum hat, nodes_sum, nodes_sum, List.map_map]
        exact Nat.succ_le_succ (List.sum_le_sum fun t ht => ih t ht)
      | call _ _ _ _ | deriv _ _ | integral _ _ _ _ => exact here.elim

end

theorem nodes_replace_le {tree part : Expr} (n : Number) (htree : tree.Everywhere Plain)
    (hpart : part.Everywhere Plain) : (tree.replace part (.num n)).nodes ≤ tree.nodes := by
  obtain ⟨hliteral, -⟩ := Target.within_eq tree part
  refine nodes_apply_le (r := ⟨Target.within tree part, .num n, (num n).neg⟩) ?_ rfl rfl htree
  rw [hliteral]
  exact hpart

end Expr

/-! ### Expressions with nothing but zero and one in them -/

/-- A plain tree is reduced, and has no more nodes than before. -/
def Progress.shrinking : Progress where
  rel a b := a.Everywhere Plain → a.Reduces b ∧ b.nodes ≤ a.nodes
  refl _ ha := ⟨.refl ha, le_rfl⟩
  trans hab hbc ha :=
    have hb := hab ha
    have hc := hbc hb.1.plain
    ⟨hb.1.trans hc.1, hc.2.trans hb.2⟩

theorem Progress.reduction_of_shrinking (a b : Expr) (h : Progress.shrinking.rel a b) :
    Progress.reduction.rel a b :=
  fun ha => (h ha).1

/-- What an expression is worked out to whose parts are all as large as one: a number. -/
structure Expr.Counted (e r : Expr) : Prop where
  reduces : e.Reduces r
  number : r.isNumber = true

theorem Expr.Counted.simplified {e r : Expr} (h : e.Counted r) : e.Simplified r :=
  ⟨h.reduces, .term (.inl h.number)⟩

/-- The number is zero or one. -/
theorem Expr.Counted.cases {e r : Expr} (h : e.Counted r) (hunit : e.bulk 2 = 1) :
    r.isValue 0 = true ∨ r.isValue 1 = true := by
  have hle := h.reduces.bulk 2 (by decide)
  have hplain := h.reduces.plain.here
  cases r with
  | num n =>
    rw [hunit, Expr.bulk_num] at hle
    cases n with
    | float x => exact hplain.elim
    | int n =>
      have hnonneg : 0 ≤ n.toInt := hplain
      change max 1 n.toInt.natAbs ≤ 1 at hle
      rcases (show n.toInt = 0 ∨ n.toInt = 1 by omega) with hn | hn
      · obtain rfl : n = 0 := Int64.toInt_inj.1 hn
        exact .inl rfl
      · obtain rfl : n = 1 := Int64.toInt_inj.1 hn
        exact .inr rfl
  | _ => cases h.number

namespace Simplify

variable {s : Sheet}

/-- Changing something that is no number to one. -/
theorem meets_change_to_num {part : Expr} {n : Number} (hpart : part.Everywhere Plain)
    (hr : part.isNumber = false) (h : part.Reduces (.num n)) :
    Meets .shrinking s (do Work.change part (.num n); return (Expr.num n)) part.Counted :=
  (Work.meets_changeWith fun _ htree =>
    ⟨h.replace hpart (Expr.replaceable_of_not_number hr) htree,
      Expr.nodes_replace_le n htree hpart⟩).bind fun _ _ _ _ => .pure ⟨h, rfl⟩

/-- Siblings with nothing but zero and one in them are worked out to numbers if all such expressions are
that have no more nodes than one of them. -/
theorem reaches_siblings_units {parts : List Expr} (hplain : ∀ e ∈ parts, e.Everywhere Plain)
    (hunit : ∀ e ∈ parts, e.bulk 2 = 1)
    (h : ∀ e ∈ parts, ∀ e', e'.nodes ≤ e.nodes → e'.Everywhere Plain → e'.bulk 2 = 1 →
      ∀ s : Sheet, Reaches True .shrinking s (fun d => Expr.simplifyAt d e') e'.Counted) :
    Reaches True .shrinking s (fun d => siblings (Expr.simplifyAt d) parts)
      (List.Forall₂ Expr.Counted parts) := by
  refine reaches_siblings (fun _ a b => a.Reduces b ∧ b.nodes ≤ a.nodes)
    (fun _ => .shrinking) (fun i hi e he s => ?_)
    (fun _ _ _ _ ha hab => ?_) (fun _ _ _ => id) fun e he => ⟨.refl (hplain e he), le_rfl⟩
  · have hmem := List.getElem_mem hi
    have hle := he.1.bulk 2 (by decide)
    have hone := Expr.one_le_bulk (w := 2) (by decide) he.1.plain
    rw [hunit _ hmem] at hle
    refine (h _ hmem e he.2 he.1.plain (le_antisymm hle hone) s).mono fun r hr => ?_
    exact ⟨he.1.trans hr.reduces, hr.number⟩
  · have hb := hab ha.1.plain
    exact ⟨ha.1.trans hb.1, hb.2.trans ha.2⟩

/-- A sum of one term is worked out to the number that its term is worked out to. -/
theorem reaches_sum_unit {simplify : ℕ → Simplifier} {t : Expr}
    (h : Reaches True .shrinking s (fun d => siblings (simplify d) [t])
      (List.Forall₂ Expr.Counted [t])) :
    Reaches True .shrinking s (fun d => sum (simplify d) [t]) (Expr.sum [t]).Counted := by
  unfold sum
  refine h.bind fun simplified u _ hsimplified => .of_meets ?_
  obtain ⟨r, rest, hr, hrest, rfl⟩ := List.forall₂_cons_left_iff.1 hsimplified
  obtain rfl := List.forall₂_nil_left_iff.1 hrest
  cases r with
  | num n =>
    have hreduces : (Expr.sum [t]).Reduces (.sum [.num n]) :=
      .sum (.cons hr.reduces .nil) (List.cons_ne_nil t [])
    have hn : n.Natural := hr.reduces.plain.here
    have hvalue : (Expr.sum [.num n]).Reduces (.num n) := by
      refine .to_num hreduces.plain hn fun symbols => ?_
      rw [Expr.value_sum, List.map_singleton, List.sum_singleton, Expr.value_num]
      rfl
    show Meets .shrinking u (do Work.change (.sum [.num n]) (.num n); return (Expr.num n)) _
    refine (meets_change_to_num hreduces.plain rfl hvalue).mono fun e he => ?_
    exact ⟨hreduces.trans he.reduces, he.number⟩
  | _ => cases hr.number

/-- A product with nothing but zero and one in it is worked out to one of them. -/
theorem reaches_product_unit {simplify : ℕ → Simplifier} {parts : List Expr}
    (hplain : (Expr.prod parts).Everywhere Plain) (hunit : ∀ e ∈ parts, e.bulk 2 = 1)
    (h : Reaches True .shrinking s (fun d => siblings (simplify d) parts)
      (List.Forall₂ Expr.Counted parts)) :
    Reaches True .shrinking s (fun d => product (simplify d) parts) (Expr.prod parts).Counted := by
  unfold product
  refine .ite (fun hany => .of_meets ?_) fun _ => ?_
  · exact meets_change_to_num hplain rfl (reduces_zero hplain hany)
  refine h.bind fun simplified u _ hsimplified => ?_
  have hreduces : (Expr.prod parts).Reduces (.prod simplified) :=
    .prod (hsimplified.imp fun _ _ h => h.reduces)
  have hchange {n : Number} (hn : (Expr.prod simplified).Reduces (.num n)) : Meets .shrinking u
      (do Work.change (.prod simplified) (.num n); return (Expr.num n)) (Expr.prod parts).Counted :=
    (meets_change_to_num hreduces.plain rfl hn).mono fun e he =>
      ⟨hreduces.trans he.reduces, he.number⟩
  extract_lets inTree
  refine .ite (fun hany => .of_meets (hchange (reduces_zero hreduces.plain hany))) fun hnone => ?_
  -- Without a zero among them all factors are one.
  have hones : simplified.filter (!·.isValue 1) = [] := by
    rw [List.filter_eq_nil_iff]
    intro r hr
    obtain ⟨i, hi, rfl⟩ := List.getElem_of_mem hr
    have hi' : i < parts.length := hsimplified.length_eq.symm ▸ hi
    rcases (hsimplified.get hi' hi).cases (hunit _ (List.getElem_mem hi')) with hzero | hone
    · exact (hnone (List.any_eq_true.2 ⟨_, hr, hzero⟩)).elim
    · simpa using hone
  have hone := reduces_kept hreduces.plain.factors
  rw [hones] at hone ⊢
  exact .of_meets (hchange hone)

end Simplify

/-- An expression with nothing but zero and one in it is worked out to one of them. -/
theorem reaches_unit {e : Expr} (he : e.Everywhere Plain) (hunit : e.bulk 2 = 1) (s : Sheet) :
    Reaches True .shrinking s (fun d => Expr.simplifyAt d e) e.Counted := by
  induction hnodes : e.nodes using Nat.strong_induction_on generalizing e s with
  | _ nodes ih =>
    subst hnodes
    have hsiblings {parts : List Expr} (hplain : ∀ t ∈ parts, t.Everywhere Plain)
        (hparts : ∀ t ∈ parts, t.bulk 2 = 1) (hless : ∀ t ∈ parts, t.nodes < e.nodes) :
        Reaches True .shrinking s (fun d => Simplify.siblings (Expr.simplifyAt d) parts)
          (List.Forall₂ Expr.Counted parts) :=
      Simplify.reaches_siblings_units hplain hparts fun t ht e' hle he' hunit' s =>
        ih e'.nodes (lt_of_le_of_lt hle (hless t ht)) he' hunit' s rfl
    refine .succ ?_
    cases e with
    | num n =>
      cases n with
      | float x => exact he.here.elim
      | int n =>
        have hn : (Number.int n).Natural := he.here
        refine .of_meets ((Simplify.meets_literal hn).mono fun r hr => ⟨hr.reduces, ?_⟩)
        have hle : max 1 n.toInt.natAbs = 1 := hunit
        rw [hr.reduces.small n (by omega) rfl]
        rfl
    | sym name => cases hunit
    | sum terms =>
      rw [Expr.bulk_sum] at hunit
      have hlength := Simplify.length_le_bulk he.terms (w := 2) (by decide)
      obtain ⟨t, rest, rfl⟩ := List.exists_cons_of_ne_nil (show terms ≠ [] from he.here)
      obtain rfl : rest = [] := by
        rw [hunit, List.length_cons] at hlength
        exact List.length_eq_zero_iff.1 (by omega)
      refine Simplify.reaches_sum_unit (hsiblings he.terms ?_ fun t ht => Expr.nodes_lt_sum ht)
      simpa using hunit
    | prod factors =>
      have hfactors : ∀ f ∈ factors, f.bulk 2 = 1 := fun f hf =>
        le_antisymm (hunit ▸ Expr.bulk_le_prod (by decide) he.factors hf)
          (Expr.one_le_bulk (by decide) (he.factors f hf))
      exact Simplify.reaches_product_unit he hfactors
        (hsiblings he.factors hfactors fun f hf => Expr.nodes_lt_prod hf)
    | pow base exponent =>
      obtain ⟨rfl, k, rfl, -⟩ := he.here
      rw [Expr.bulk_power] at hunit
      have hpow := Nat.one_lt_pow (show max 1 k.toInt.natAbs ≠ 0 by omega) (show 1 < 10 by decide)
      omega
    | call _ _ _ _ | deriv _ _ | integral _ _ _ _ => exact he.here.elim

/-! ### The order in which simplifying ends -/

/-- Whether an expression comes before another one: it is smaller, or as large with fewer nodes. -/
def Expr.Before (a b : Expr) : Prop :=
  toLex (a.bulk 2, a.nodes) < toLex (b.bulk 2, b.nodes)

theorem Expr.before_iff {a b : Expr} :
    a.Before b ↔ a.bulk 2 < b.bulk 2 ∨ a.bulk 2 = b.bulk 2 ∧ a.nodes < b.nodes :=
  Prod.Lex.toLex_lt_toLex

theorem Expr.before_wellFounded : WellFounded Expr.Before :=
  InvImage.wf (fun e : Expr => toLex (e.bulk 2, e.nodes)) wellFounded_lt

/-- The parts of a whole. One of them can only be as large as the whole if there is nothing but zero and
one in those in front of it. -/
structure Expr.Parts (e : Expr) (parts : List Expr) : Prop where
  plain : ∀ t ∈ parts, t.Everywhere Plain
  magnitude : ∀ t ∈ parts, t.magnitude ≤ e.magnitude
  bulk : ∀ t ∈ parts, t.bulk 2 ≤ e.bulk 2
  nodes : ∀ t ∈ parts, t.nodes < e.nodes
  tie : ∀ before t after, parts = before ++ t :: after → t.bulk 2 = e.bulk 2 →
    ∀ u ∈ before, u.bulk 2 = 1

theorem Expr.parts_sum {terms : List Expr} (h : (Expr.sum terms).Everywhere Plain) :
    (Expr.sum terms).Parts terms where
  plain := h.terms
  magnitude _ ht := Expr.bulk_le_sum ht
  bulk _ ht := Expr.bulk_le_sum ht
  nodes _ ht := Expr.nodes_lt_sum ht
  tie before t after heq htie u hu := by
    subst heq
    have hbefore : ∀ e ∈ before, e.Everywhere Plain := fun e he => h.terms e (by simp [he])
    have hlength := Simplify.length_le_bulk hbefore (w := 2) (by decide)
    have hpos := List.length_pos_of_mem hu
    rw [Expr.bulk_sum, List.map_append, List.sum_append, List.map_cons, List.sum_cons] at htie
    omega

theorem Expr.parts_prod {factors : List Expr} (h : (Expr.prod factors).Everywhere Plain) :
    (Expr.prod factors).Parts factors where
  plain := h.factors
  magnitude _ hf := Expr.bulk_le_prod le_rfl h.factors hf
  bulk _ hf := Expr.bulk_le_prod (by decide) h.factors hf
  nodes _ hf := Expr.nodes_lt_prod hf
  tie before t after heq htie u hu := by
    subst heq
    have hplain {es : List Expr} (hes : es ⊆ before ++ t :: after) :
        (Expr.prod es).Everywhere Plain :=
      .prod trivial fun e he => h.factors e (hes he)
    have hbefore : (Expr.prod before).Everywhere Plain := hplain (List.subset_append_left ..)
    have hafter : (Expr.prod after).Everywhere Plain := hplain fun e he => by simp [he]
    have ht := Expr.one_le_bulk (w := 2) (by decide) (h.factors t (by simp))
    have hpos := Expr.one_le_bulk (w := 2) (by decide) hafter
    have hle := Expr.bulk_le_prod (w := 2) (by decide) hbefore.factors hu
    have hone := Expr.one_le_bulk (w := 2) (by decide) (hbefore.factors u hu)
    have hprod : (Expr.prod (before ++ t :: after)).bulk 2 =
        (Expr.prod before).bulk 2 * (t.bulk 2 * (Expr.prod after).bulk 2) := by
      simp only [Expr.bulk_prod, List.map_append, List.prod_append, List.map_cons, List.prod_cons]
    by_contra hne
    have hlarge : 2 * (t.bulk 2 * 1) ≤
        (Expr.prod before).bulk 2 * (t.bulk 2 * (Expr.prod after).bulk 2) :=
      Nat.mul_le_mul (by omega) (Nat.mul_le_mul_left _ hpos)
    omega

/-- Siblings come to an end if everything does that comes before the whole of which they are parts. -/
theorem reaches_siblings_of_before {e : Expr} {parts : List Expr} (hparts : e.Parts parts)
    (hbound : e.magnitude < 2 ^ 63)
    (h : ∀ e' : Expr, e'.Before e → e'.Everywhere Plain → e'.magnitude < 2 ^ 63 →
      e'.Worked True Expr.simplifyAt) (s : Sheet) :
    Reaches True .reduction s (fun d => Simplify.siblings (Expr.simplifyAt d) parts)
      (List.Forall₂ Expr.Simplified parts) := by
  classical
  -- As long as there was nothing but zero and one in the parts worked on, the others have not grown.
  let left (i : ℕ) (a b : Expr) : Prop :=
    a.Reduces b ∧ ((∀ t ∈ parts.take i, t.bulk 2 = 1) → b.nodes ≤ a.nodes)
  let progress (i : ℕ) : Progress :=
    if ∀ t ∈ parts.take (i + 1), t.bulk 2 = 1 then .shrinking else .reduction
  have hprogress : ∀ i a b, (progress i).rel a b → Progress.reduction.rel a b := by
    intro i a b hab
    simp only [progress] at hab
    split at hab
    · exact Progress.reduction_of_shrinking a b hab
    · exact hab
  refine Simplify.reaches_siblings left progress (fun i hi e' hleft t => ?_)
    (fun i tree a b ha hab => ?_) hprogress fun e he => ⟨.refl (hparts.plain e he), fun _ => le_rfl⟩
  · have hmem := List.getElem_mem hi
    have hle := hleft.1.bulk 2 (by decide)
    have hone := Expr.one_le_bulk (w := 2) (by decide) hleft.1.plain
    simp only [progress]
    split
    · rename_i hunits
      have hunit : parts[i].bulk 2 = 1 :=
        hunits _ (List.mem_take_iff_getElem.2 ⟨i, lt_min (Nat.lt_succ_self i) hi, rfl⟩)
      rw [hunit] at hle
      refine (reaches_unit hleft.1.plain (le_antisymm hle hone) t).mono fun r hr => ?_
      exact ⟨hleft.1.trans hr.reduces, hr.simplified.settled⟩
    · have hbefore : e'.Before e := by
        have hwhole := hparts.bulk _ hmem
        rw [Expr.before_iff]
        rcases lt_or_eq_of_le (hle.trans hwhole) with hlt | htie
        · exact .inl hlt
        · have hsplit : parts = parts.take i ++ parts[i] :: parts.drop (i + 1) := by
            rw [List.getElem_cons_drop, List.take_append_drop]
          have hunits := hparts.tie _ _ _ hsplit (le_antisymm hwhole (htie ▸ hle))
          exact .inr ⟨htie, lt_of_le_of_lt (hleft.2 hunits) (hparts.nodes _ hmem)⟩
      refine (h e' hbefore hleft.1.plain ?_ t).mono fun r hr => ?_
      · exact lt_of_le_of_lt (hleft.1.magnitude.trans (hparts.magnitude _ hmem)) hbound
      · exact ⟨hleft.1.trans hr.reduces, hr.settled⟩
  · refine ⟨ha.1.trans (hprogress i a b hab ha.1.plain), fun hunits => ?_⟩
    simp only [progress] at hab
    rw [if_pos hunits] at hab
    refine (hab ha.1.plain).2.trans (ha.2 fun t ht => hunits t ?_)
    exact List.take_subset_take_left _ (Nat.le_succ i) ht

/-- A sum whose terms are all smaller than something comes to an end if what is smaller does. -/
theorem worked_sum_of_smaller {e : Expr} {terms : List Expr}
    (hplain : (Expr.sum terms).Everywhere Plain) (hbound : (Expr.sum terms).magnitude < 2 ^ 63)
    (hsmaller : ∀ t ∈ terms, t.bulk 2 < e.bulk 2)
    (h : ∀ e' : Expr, e'.Before e → e'.Everywhere Plain → e'.magnitude < 2 ^ 63 →
      e'.Worked True Expr.simplifyAt) : (Expr.sum terms).Worked True Expr.simplifyAt := by
  intro s
  refine .succ (Simplify.reaches_sum (Simplify.reaches_siblings_of_worked hplain.terms
    fun t ht e' hreduces => ?_) hplain hbound)
  refine h e' (Expr.before_iff.2 (.inl ?_)) hreduces.plain ?_
  · exact lt_of_le_of_lt (hreduces.bulk 2 (by decide)) (hsmaller t ht)
  · exact lt_of_le_of_lt (hreduces.magnitude.trans (Expr.bulk_le_sum ht)) hbound

theorem worked_small {n : Int64} (hn : 0 ≤ n.toInt) : (Expr.int n).Worked True Expr.simplifyAt :=
  fun _ => .succ (.of_meets (Simplify.meets_literal (n := .int n) hn))

/-- Simplifying an expression over the natural numbers comes to an end. -/
theorem worked_simplifyAt {e : Expr} (he : e.Everywhere Plain) (hbound : e.magnitude < 2 ^ 63) :
    e.Worked True Expr.simplifyAt := by
  induction e using Expr.before_wellFounded.induction with
  | _ e ih =>
    intro s
    have hsiblings {parts : List Expr} (hparts : e.Parts parts) :=
      reaches_siblings_of_before hparts hbound ih s
    have hdistributed (items : List Expr) (hitems : Simplify.Distributes e items) :
        (Expr.sum items).Worked True Expr.simplifyAt :=
      worked_sum_of_smaller hitems.reduces.plain
        (lt_of_le_of_lt hitems.reduces.magnitude hbound) hitems.smaller ih
    refine .succ ?_
    cases e with
    | num n => exact .of_meets (Simplify.meets_literal he.here)
    | sym name => exact .of_meets (Simplify.meets_symbol name)
    | sum terms => exact Simplify.reaches_sum (hsiblings (Expr.parts_sum he)) he hbound
    | prod factors =>
      exact Simplify.reaches_product (hsiblings (Expr.parts_prod he)) hdistributed he hbound
    | pow base exponent =>
      obtain ⟨rfl, k, rfl, hlow, hhigh⟩ := he.here
      have hexpanded := Simplify.reduces_expanded hlow hhigh
      refine Simplify.reaches_power hlow hhigh (fun n hn _ => worked_small hn) fun t => ?_
      -- The factors of the expanded power are numbers that stay as they are.
      refine .succ (Simplify.reaches_product (Simplify.reaches_siblings_of_worked
        hexpanded.plain.factors fun f hf e' hreduces => ?_)
        (fun items hitems => hdistributed items (hitems.of_reduces hexpanded)) hexpanded.plain
        (Simplify.magnitude_expanded hlow hhigh))
      rw [List.eq_of_mem_replicate hf] at hreduces
      rw [hreduces.small 10 (by decide) rfl]
      exact worked_small (by decide)
    | call _ _ _ _ | deriv _ _ | integral _ _ _ _ => exact he.here.elim

/-! ### Solutions -/

theorem Expr.hasCalculus_of_plain {e : Expr} (he : e.Everywhere Plain) : e.hasCalculus = false := by
  refine hasCalculus_of_everywhere (fun e he => ?_) he
  cases e with
  | call _ _ _ _ | deriv _ _ | integral _ _ _ _ => exact he.elim
  | num _ | sym _ | sum _ | prod _ | pow _ _ => rfl

/-- To work out an expression comes to an end, with a result or in a fault, if it is one over the natural
numbers once the values are put in, and no bound symbol is left in it. From some depth on, the end does not
depend on the depth. -/
theorem solveWith_ends {e : Expr} {bindings : Bindings} {options : Options} (strict : Bool)
    (he : e.hasCalculus = false) (hplain : (bindings.replaceSymbols e).Everywhere Plain)
    (hbound : (bindings.replaceSymbols e).magnitude < 2 ^ 63) (hoptions : options.Exact)
    (hleft : ∀ name, (bindings.value? name).isSome →
      (bindings.replaceSymbols e).mentions name = false) :
    ∃ depth result, result ≠ .error .exhausted ∧ ∀ d, depth ≤ d →
      (exec (Work.solveWith (Expr.simplifyAt d)) (Sheet.new e bindings options strict)).1 = result := by
  obtain ⟨depth, ⟨result, sheet⟩, hexec, hsound⟩ :=
    (Work.reaches_solveWith
      (s := .new (bindings.replaceSymbols e) { bindings with values := [] } options strict)
      (worked_simplifyAt hplain hbound) rfl hplain).run ⟨hoptions, rfl⟩
  refine ⟨depth, result, hsound.ends trivial, fun d hd => ?_⟩
  -- With the values the result is the same at every depth.
  obtain ⟨result', s, t, -, -, hfirst, hsecond, -⟩ :=
    exec_simultaneous options strict he (Expr.hasCalculus_of_plain hplain) hleft d
  obtain ⟨rfl, -⟩ := Prod.ext_iff.1 (hsecond.symm.trans (hexec d hd))
  rw [hfirst]

/-- With `2` for `x`, the product `x * (y + 3)` is distributed and worked out again, and this ends. -/
theorem solveWith_ends_distributed : ∃ depth result, result ≠ .error .exhausted ∧ ∀ d, depth ≤ d →
    (exec (Work.solveWith (Expr.simplifyAt d)) (Sheet.new (.prod [.sym "x", .sum [.sym "y", 3]])
      { values := [("x", 2)] } exactOptions true)).1 = result := by
  have hsymbol : (Expr.sym "y").Everywhere Plain := .intro trivial fun _ hpart => nomatch hpart
  have htwo : (2 : Expr).Everywhere Plain := .num (show Number.Natural 2 by decide)
  have hthree : (3 : Expr).Everywhere Plain := .num (show Number.Natural 3 by decide)
  have hsum : (Expr.sum [.sym "y", 3]).Everywhere Plain :=
    .sum (List.cons_ne_nil _ _) (by simp [hsymbol, hthree])
  refine solveWith_ends true rfl (Expr.plain_pair htwo hsum) (by decide) exact_exactOptions
    fun name hname => ?_
  obtain ⟨p, hp, hname⟩ := List.lookup_isSome_iff.1 hname
  obtain rfl := List.mem_singleton.1 hp
  rw [eq_of_beq hname]
  rfl

end Workings

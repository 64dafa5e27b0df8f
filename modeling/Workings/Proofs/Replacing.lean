import Mathlib.Tactic.Ring
import Workings.Proofs.Acting
import Workings.Proofs.Building

/-!
# Replacing a part by an equal one

Putting something in the place of a target changes the value of a tree no more than it changes the
value of the target: for every relation `rel` that sums, products, powers and calls respect, if the
replacement is related to the target, then the new tree is related to the old one
(`Expr.rel_replace`). With equality for `rel` this says that a change that is an equation keeps the
value of the tree.

Two things have to be excluded. An empty sum is left out when factors are compared, although it is `0`.
And a target whose negation is the number `-1` is taken for a part of `-1` times anything.
-/

namespace Workings

open Workings.Expr (Everywhere Regular)

variable {R : Type*} [CommSemiring R] {m : Meaning R}

/-! ### Negation -/

theorem exists_perm_cons_eraseP {α : Type*} {p : α → Bool} {l : List α} (h : l.any p = true) :
    ∃ a ∈ l, p a = true ∧ l.Perm (a :: l.eraseP p) := by
  obtain ⟨b, hb, hpb⟩ := List.any_eq_true.1 h
  obtain ⟨a, l₁, l₂, -, hpa, hl, herase⟩ := List.exists_of_eraseP hb hpb
  refine ⟨a, by simp [hl], hpa, ?_⟩
  rw [herase, hl]
  exact List.perm_middle

namespace Expr

/-- The factor `-1` that `neg` takes away. -/
theorem exists_perm_minusOne {factors : List Expr} (hf : ∀ f ∈ factors, f.Everywhere Regular)
    (h : factors.any (·.isValue (-1)) = true) :
    factors.Perm (minusOne :: factors.eraseP (·.isValue (-1))) := by
  obtain ⟨a, ha, hvalue, hperm⟩ := exists_perm_cons_eraseP h
  rw [eq_minusOne_of_isValue (hf a ha) hvalue] at hperm
  exact hperm

/-- What `neg` does to a product. -/
theorem neg_prod_cases (factors : List Expr) :
    (factors.any (·.isValue (-1)) = true ∧
      (prod factors).neg = unwrap .prod (factors.eraseP (·.isValue (-1)))) ∨
    (factors.any (·.isValue (-1)) = false ∧ ∃ n rest, factors = .num n :: rest ∧
      (prod factors).neg = .prod (.num (-n) :: rest)) ∨
    (factors.any (·.isValue (-1)) = false ∧ (prod factors).neg = .prod (minusOne :: factors)) := by
  unfold neg
  by_cases hany : factors.any (·.isValue (-1)) = true
  · exact .inl ⟨hany, by simp only [hany, if_true]⟩
  · have hfalse := Bool.eq_false_iff.2 hany
    refine .inr ?_
    simp only [hfalse, Bool.false_eq_true, if_false, true_and]
    split
    · exact .inl ⟨_, _, rfl, rfl⟩
    · exact .inr rfl

theorem value_neg (hm : m.Signed) {e : Expr} (he : e.Everywhere Regular) :
    e.neg.value m = m.sign * e.value m := by
  cases e with
  | num n =>
    rw [neg, value_num, value_num]
    exact hm.neg n he.here
  | prod factors =>
    have hf := he.factors
    rcases neg_prod_cases factors with ⟨hany, hneg⟩ | ⟨-, n, rest, rfl, hneg⟩ | ⟨-, hneg⟩
    · have hperm := exists_perm_minusOne hf hany
      rw [hneg, value_unwrap_prod, value_prod, (hperm.map (value m)).prod_eq, List.map_cons,
        List.prod_cons, value_minusOne, hm.sign_mul_cancel]
    · have hn : n.Whole := (hf (.num n) (by simp)).here
      rw [hneg]
      simp only [value_prod, List.map_cons, List.prod_cons, value_num]
      rw [hm.neg n hn, mul_assoc]
    · rw [hneg]
      simp only [value_prod, List.map_cons, List.prod_cons, value_minusOne]
  | sum _ | sym _ | pow _ _ | call _ _ _ _ | deriv _ _ | integral _ _ _ _ => simp [neg]

section

variable {p : Expr → Prop} (hprod : ∀ factors, p (.prod factors))

include hprod

theorem everywhere_unwrap {factors : List Expr} (h : ∀ f ∈ factors, f.Everywhere p) :
    (unwrap .prod factors).Everywhere p := by
  unfold unwrap
  split
  · exact h _ (by simp)
  · exact .prod (hprod _) h

/-- A property of all products that is kept when a number changes its sign is kept by `neg`. -/
theorem everywhere_neg (hminus : p minusOne) (hnum : ∀ n, p (.num n) → p (.num (-n))) {e : Expr}
    (he : e.Everywhere p) : e.neg.Everywhere p := by
  have hcons {e : Expr} {factors : List Expr} (he : e.Everywhere p)
      (hf : ∀ f ∈ factors, f.Everywhere p) : (prod (e :: factors)).Everywhere p :=
    .prod (hprod _) (List.forall_mem_cons.2 ⟨he, hf⟩)
  cases e with
  | num n => exact .num (hnum n he.here)
  | prod factors =>
    have hf := he.factors
    rcases neg_prod_cases factors with ⟨-, hneg⟩ | ⟨-, n, rest, rfl, hneg⟩ | ⟨-, hneg⟩
    · rw [hneg]
      exact everywhere_unwrap hprod fun f hmem => hf f (List.mem_of_mem_eraseP hmem)
    · rw [hneg]
      obtain ⟨hn, hrest⟩ := List.forall_mem_cons.1 hf
      exact hcons (.num (hnum n hn.here)) hrest
    · rw [hneg]
      exact hcons (.num hminus) hf
  | sum _ | sym _ | pow _ _ | call _ _ _ _ | deriv _ _ | integral _ _ _ _ =>
    exact hcons (.num hminus) (by simpa using he)

end

theorem regular_neg {e : Expr} (he : e.Everywhere Regular) : e.neg.Everywhere Regular :=
  everywhere_neg (fun _ => trivial) regular_minusOne.here (fun _ hn => hn.neg) he

end Expr

/-! ### Parts of sums and products -/

/-- Whether an expression is the sum of no terms. -/
def Expr.isEmptySum : Expr → Bool
  | .sum [] => true
  | _ => false

theorem Expr.isEmptySum_eq_false {e : Expr} (h : e ≠ .sum []) : e.isEmptySum = false := by
  unfold isEmptySum
  split
  · exact (h rfl).elim
  · rfl

theorem Expr.filter_isEmptySum {es : List Expr} (h : .sum [] ∉ es) : es.filter (!·.isEmptySum) = es := by
  refine List.filter_eq_self.2 fun e he => ?_
  rw [isEmptySum_eq_false fun hempty => h (hempty ▸ he)]
  rfl

namespace Target

/-- Taking items out of a list leaves the rest of it. -/
theorem perm_of_difference? {wanted items rest : List Expr}
    (hw : ∀ e ∈ wanted, e.Everywhere Regular) (hi : ∀ e ∈ items, e.Everywhere Regular)
    (h : difference? wanted items = some rest) : items.Perm (wanted ++ rest) := by
  induction items generalizing wanted rest with
  | nil =>
    unfold difference? at h
    split at h
    · rename_i hempty
      rw [List.isEmpty_iff.1 hempty]
      cases h
      exact .nil
    · cases h
  | cons item items ih =>
    have hitem := hi item (by simp)
    have hitems : ∀ e ∈ items, e.Everywhere Regular := fun e he => hi e (by simp [he])
    unfold difference? at h
    split at h
    · rename_i hany
      obtain ⟨a, ha, heq, hperm⟩ := exists_perm_cons_eraseP hany
      rw [Expr.eq_of_beq (hw a ha) hitem heq] at hperm
      have hrest := ih (fun e he => hw e (List.mem_of_mem_eraseP he)) hitems h
      exact (hrest.cons item).trans (hperm.append_right rest).symm
    · obtain ⟨rest', hrest', rfl⟩ := Option.map_eq_some_iff.1 h
      exact ((ih hw hitems hrest').cons item).trans List.perm_middle.symm

theorem perm_of_leftover? {items wanted rest : List Expr}
    (hi : ∀ e ∈ items, e.Everywhere Regular) (hw : ∀ e ∈ wanted, e.Everywhere Regular)
    (h : leftover? items wanted = some rest) : items.Perm (wanted ++ rest) := by
  unfold leftover? at h
  split at h
  · cases h
  · exact perm_of_difference? hw hi h

theorem foldl_isNegative (sign : Bool) (factors : List Expr) :
    factors.foldl (fun sign factor => sign ^^ factor.number?.any Number.isNegative) sign =
      (sign ^^ isNegative factors) := by
  induction factors generalizing sign with
  | nil => simp [isNegative]
  | cons factor factors ih =>
    have hcons : isNegative (factor :: factors) =
        ((false ^^ factor.number?.any Number.isNegative) ^^ isNegative factors) := ih _
    rw [List.foldl_cons, ih, hcons]
    simp

theorem isNegative_cons (factor : Expr) (factors : List Expr) :
    isNegative (factor :: factors) =
      (factor.number?.any Number.isNegative ^^ isNegative factors) := by
  rw [isNegative, List.foldl_cons, foldl_isNegative]
  simp

theorem everywhere_plainFactors {p : Expr → Prop} (habs : ∀ n : Number, p (.num n) → p (.num n.abs))
    {factors : List Expr} (h : ∀ f ∈ factors, f.Everywhere p) :
    ∀ f ∈ plainFactors factors, f.Everywhere p := by
  fun_induction plainFactors factors with
  | case1 => exact h
  | case2 inner rest ih =>
    intro f hf
    rcases List.mem_append.1 hf with hf | hf
    · exact (h (.prod inner) (by simp)).factors f hf
    · exact ih (fun f hf => h f (by simp [hf])) f hf
  | case3 rest ih => exact ih fun f hf => h f (by simp [hf])
  | case4 term rest ih =>
    intro f hf
    rcases List.mem_cons.1 hf with rfl | hf
    · exact (h (.sum [f]) (by simp)).terms f (by simp)
    · exact ih (fun f hf => h f (by simp [hf])) f hf
  | case5 n rest _ ih => exact ih fun f hf => h f (by simp [hf])
  | case6 n rest _ ih =>
    intro f hf
    rcases List.mem_cons.1 hf with rfl | hf
    · exact .num (habs n (h (.num n) (by simp)).here)
    · exact ih (fun f hf => h f (by simp [hf])) f hf
  | case7 factor rest _ _ _ _ ih =>
    intro f hf
    rcases List.mem_cons.1 hf with rfl | hf
    · exact h f (by simp)
    · exact ih (fun f hf => h f (by simp [hf])) f hf

theorem regular_plainFactors {factors : List Expr} (h : ∀ f ∈ factors, f.Everywhere Regular) :
    ∀ f ∈ plainFactors factors, f.Everywhere Regular :=
  everywhere_plainFactors (fun _ hn => hn.abs) h

/-- The factors for comparison have the value of the product of all factors but the sums of no terms, up to its
sign. -/
theorem prod_filter_plainFactors (hm : m.Signed) {factors : List Expr}
    (h : ∀ n, .num n ∈ factors → n.Whole) :
    ((factors.filter (!·.isEmptySum)).map (Expr.value m)).prod =
      m.signOf (isNegative factors) * ((plainFactors factors).map (Expr.value m)).prod := by
  fun_induction plainFactors factors with
  | case1 => simp [isNegative, Meaning.signOf]
  | case2 inner rest ih =>
    rw [List.filter_cons_of_pos rfl, List.map_cons, List.prod_cons, ih fun n hn => h n (by simp [hn]),
      isNegative_cons]
    simp only [Expr.number?, Expr.value_prod, List.map_append, List.prod_append, Option.any_none,
      Bool.false_bne]
    ring
  | case3 rest ih =>
    rw [List.filter_cons_of_neg Bool.false_ne_true, ih fun n hn => h n (by simp [hn]), isNegative_cons]
    simp only [Expr.number?, Option.any_none, Bool.false_bne]
  | case4 term rest ih =>
    rw [List.filter_cons_of_pos rfl, List.map_cons, List.prod_cons, ih fun n hn => h n (by simp [hn]),
      isNegative_cons]
    simp only [Expr.number?, Expr.value_sum, List.map_cons, List.map_nil, List.sum_singleton,
      List.prod_cons, Option.any_none, Bool.false_bne]
    ring
  | case5 n rest hone ih =>
    have hn : n.Whole := h n (by simp)
    have habs : n.abs = 1 := hn.abs.eq_of_same (by decide) hone
    rw [List.filter_cons_of_pos rfl, List.map_cons, List.prod_cons, ih fun n hn => h n (by simp [hn]),
      isNegative_cons, Expr.value_num, hm.num_abs hn, habs, hm.one, mul_one, ← mul_assoc,
      hm.signOf_mul_signOf]
    rfl
  | case6 n rest _ ih =>
    have hn : n.Whole := h n (by simp)
    rw [List.filter_cons_of_pos rfl, List.map_cons, List.prod_cons, ih fun n hn => h n (by simp [hn]),
      isNegative_cons, Expr.value_num, hm.num_abs hn, List.map_cons, List.prod_cons, Expr.value_num]
    simp only [Expr.number?, Option.any_some]
    rw [← hm.signOf_mul_signOf]
    ring
  | case7 factor rest _ hempty _ hnum ih =>
    have hnumber : factor.number? = none := by
      cases factor with
      | num n => exact (hnum n rfl).elim
      | _ => rfl
    have hkept : (factor :: rest).filter (!·.isEmptySum) = factor :: rest.filter (!·.isEmptySum) := by
      rw [List.filter_cons, Expr.isEmptySum_eq_false hempty]
      rfl
    rw [hkept, List.map_cons, List.prod_cons, ih fun n hn => h n (by simp [hn]),
      isNegative_cons, hnumber]
    simp only [List.map_cons, List.prod_cons, Option.any_none, Bool.false_bne]
    ring

/-- The factors for comparison have the value of the product, up to its sign. -/
theorem prod_plainFactors (hm : m.Signed) {factors : List Expr}
    (h : ∀ f ∈ factors, f.Everywhere Regular) :
    (factors.map (Expr.value m)).prod =
      m.signOf (isNegative factors) * ((plainFactors factors).map (Expr.value m)).prod := by
  have hempty : .sum [] ∉ factors := fun hmem => (h _ hmem).here rfl
  rw [← prod_filter_plainFactors hm fun n hn => (h _ hn).here, Expr.filter_isEmptySum hempty]

/-- Nodes whose products with `-1` may be normalized. -/
structure Comparable (m : Meaning R) (p : Expr → Prop) : Prop where
  regular : ∀ e, p e → Regular e
  pair : ∀ a b : Expr, a.Everywhere p → b.Everywhere p →
    (a.isValue (-1) || b.isValue (-1)) = true →
    (Expr.buildProd [a, b]).value m = a.value m * b.value m

variable {p : Expr → Prop}

theorem everywhere_plainTerms
    (hpair : ∀ a b : Expr, a.Everywhere p → b.Everywhere p →
      (a.isValue (-1) || b.isValue (-1)) = true → (Expr.buildProd [a, b]).Everywhere p)
    {terms : List Expr} (h : ∀ t ∈ terms, t.Everywhere p) :
    ∀ t ∈ plainTerms terms, t.Everywhere p := by
  fun_induction plainTerms terms with
  | case1 => exact h
  | case2 inner rest ih =>
    intro t ht
    rcases List.mem_append.1 ht with ht | ht
    · exact (h (.sum inner) (by simp)).terms t ht
    · exact ih (fun t ht => h t (by simp [ht])) t ht
  | case3 factor rest ih =>
    intro t ht
    rcases List.mem_cons.1 ht with rfl | ht
    · exact (h (.prod [t]) (by simp)).factors t (by simp)
    · exact ih (fun t ht => h t (by simp [ht])) t ht
  | case4 a b rest ih =>
    intro t ht
    have hab := h (.prod [a, b]) (by simp)
    rcases List.mem_cons.1 ht with rfl | ht
    · split
      · rename_i hminus
        exact hpair a b (hab.factors a (by simp)) (hab.factors b (by simp)) hminus
      · exact hab
    · exact ih (fun t ht => h t (by simp [ht])) t ht
  | case5 term rest _ _ _ ih =>
    intro t ht
    rcases List.mem_cons.1 ht with rfl | ht
    · exact h t (by simp)
    · exact ih (fun t ht => h t (by simp [ht])) t ht

theorem regular_plainTerms {terms : List Expr} (h : ∀ t ∈ terms, t.Everywhere Regular) :
    ∀ t ∈ plainTerms terms, t.Everywhere Regular := by
  refine everywhere_plainTerms (fun a b ha hb _ => ?_) h
  refine Expr.everywhere_buildProd (show Number.Whole 0 by decide) (show Number.Whole 1 by decide)
    (fun _ _ => trivial) fun f hf => ?_
  rcases List.mem_pair.1 hf with rfl | rfl
  · exact ha
  · exact hb

/-- The terms for comparison have the value of the sum. -/
theorem sum_plainTerms
    (hpair : ∀ a b : Expr, a.Everywhere p → b.Everywhere p →
      (a.isValue (-1) || b.isValue (-1)) = true →
      (Expr.buildProd [a, b]).value m = a.value m * b.value m)
    {terms : List Expr} (h : ∀ t ∈ terms, t.Everywhere p) :
    ((plainTerms terms).map (Expr.value m)).sum = (terms.map (Expr.value m)).sum := by
  fun_induction plainTerms terms with
  | case1 => rfl
  | case2 inner rest ih =>
    rw [List.map_append, List.sum_append, ih fun t ht => h t (by simp [ht]), List.map_cons,
      List.sum_cons, Expr.value_sum]
  | case3 factor rest ih =>
    rw [List.map_cons, List.sum_cons, ih fun t ht => h t (by simp [ht])]
    simp
  | case4 a b rest ih =>
    have hfactors := (h (.prod [a, b]) (by simp)).factors
    have hfirst : (if (a.isValue (-1) || b.isValue (-1)) = true then Expr.buildProd [a, b]
        else Expr.prod [a, b]).value m = (Expr.prod [a, b]).value m := by
      split
      · rename_i hminus
        rw [hpair a b (hfactors a (by simp)) (hfactors b (by simp)) hminus]
        simp
      · rfl
    rw [List.map_cons, List.sum_cons, ih fun t ht => h t (by simp [ht]), hfirst, List.map_cons,
      List.sum_cons]
  | case5 term rest _ _ _ ih =>
    rw [List.map_cons, List.sum_cons, ih fun t ht => h t (by simp [ht]), List.map_cons,
      List.sum_cons]

end Target

/-! ### Replacements -/

/-- A relation between values that every operation respects. -/
structure Meaning.Compatible (m : Meaning R) (rel : R → R → Prop) : Prop where
  refl : ∀ a, rel a a
  add : ∀ {a b c d}, rel a b → rel c d → rel (a + c) (b + d)
  mul : ∀ {a b c d}, rel a b → rel c d → rel (a * c) (b * d)
  pow : ∀ {a b c d}, rel a b → rel c d → rel (m.pow a c) (m.pow b d)
  call : ∀ (f : Signature) {as₁ bs₁ as₂ bs₂ as₃ bs₃ : List R}, List.Forall₂ rel as₁ bs₁ →
    List.Forall₂ rel as₂ bs₂ → List.Forall₂ rel as₃ bs₃ →
    rel (m.call f as₁ as₂ as₃) (m.call f bs₁ bs₂ bs₃)

namespace Meaning.Compatible

variable {rel : R → R → Prop}

omit [CommSemiring R] in
theorem forall₂ {f g : Expr → R} {es : List Expr} (h : ∀ e ∈ es, rel (f e) (g e)) :
    List.Forall₂ rel (es.map f) (es.map g) := by
  induction es with
  | nil => exact .nil
  | cons e es ih => exact .cons (h e (by simp)) (ih fun e he => h e (by simp [he]))

theorem sum (hrel : m.Compatible rel) {as bs : List R} (h : List.Forall₂ rel as bs) :
    rel as.sum bs.sum := by
  induction h with
  | nil => exact hrel.refl _
  | cons hab _ ih =>
    rw [List.sum_cons, List.sum_cons]
    exact hrel.add hab ih

theorem prod (hrel : m.Compatible rel) {as bs : List R} (h : List.Forall₂ rel as bs) :
    rel as.prod bs.prod := by
  induction h with
  | nil => exact hrel.refl _
  | cons hab _ ih =>
    rw [List.prod_cons, List.prod_cons]
    exact hrel.mul hab ih

/-- Every operation respects equality. -/
theorem eq (m : Meaning R) : m.Compatible Eq where
  refl _ := rfl
  add h h' := by rw [h, h']
  mul h h' := by rw [h, h']
  pow h h' := by rw [h, h']
  call f _ _ _ _ _ _ h₁ h₂ h₃ := by
    rw [List.forall₂_eq_eq_eq] at h₁ h₂ h₃
    rw [h₁, h₂, h₃]

end Meaning.Compatible

namespace Replacement

/-- A replacement that is related to its target. -/
structure Related (m : Meaning R) (rel : R → R → Prop) (p : Expr → Prop) (r : Replacement) : Prop where
  literal : r.target.literal.Everywhere p
  targetNegated : r.target.negated = r.target.literal.neg
  value : r.value.Everywhere Regular
  negated : r.negated = r.value.neg
  apart : r.target.negated.isValue (-1) = false
  rel : rel (r.value.value m) (r.target.literal.value m)

/-- If what takes the place of a node has a property at every node, and so has a node in the parts of which
something is replaced, then so has the expression. -/
theorem everywhere_apply {p q : Expr → Prop} {r : Replacement}
    (hacts : ∀ e e', e.Everywhere p → r.Acts e e' → e'.Everywhere q)
    (hbelow : ∀ e, e.Everywhere p → r.actsAt e = false → q (r.apply e)) {e : Expr}
    (he : e.Everywhere p) : (r.apply e).Everywhere q := by
  induction he with
  | @intro e here parts ih =>
    have he : e.Everywhere p := .intro here parts
    cases hat : r.actsAt e with
    | true => exact hacts e _ he (acts_apply hat)
    | false =>
      refine .intro (hbelow e he hat) fun part hpart => ?_
      rw [children_apply hat] at hpart
      obtain ⟨before, hbefore, rfl⟩ := List.mem_map.1 hpart
      exact ih before hbefore

section

variable {rel : R → R → Prop} {p : Expr → Prop} {r : Replacement}

theorem prod_asFactors (e : Expr) : ((asFactors e).map (Expr.value m)).prod = e.value m := by
  unfold asFactors
  split
  · rw [Expr.value_prod]
  · simp

theorem sum_asTerms (e : Expr) : ((asTerms e).map (Expr.value m)).sum = e.value m := by
  unfold asTerms
  split
  · rw [Expr.value_sum]
  · simp

/-- The factors left over and the target make up the product, with the sign that is left over. -/
theorem prod_productRest? (hm : m.Signed) {factors rest : List Expr} {target : Expr}
    {negative : Bool} (hf : ∀ f ∈ factors, f.Everywhere Regular) (ht : target.Everywhere Regular)
    (h : Target.productRest? factors target = some (rest, negative)) :
    (factors.map (Expr.value m)).prod =
      target.value m * (rest.map (Expr.value m)).prod * m.signOf negative := by
  obtain ⟨wanted, rfl, hrest, rfl⟩ := Target.exists_of_productRest? h
  have hperm := Target.perm_of_leftover? (Target.regular_plainFactors hf)
    (Target.regular_plainFactors ht.factors) hrest
  have hwanted : (Expr.prod wanted).value m = m.signOf (Target.isNegative wanted) *
      ((Target.plainFactors wanted).map (Expr.value m)).prod := by
    rw [Expr.value_prod]
    exact Target.prod_plainFactors hm ht.factors
  have hnegative : m.signOf (Target.isNegative factors != Target.isNegative wanted) =
      m.signOf (Target.isNegative factors) * m.signOf (Target.isNegative wanted) :=
    (hm.signOf_mul_signOf _ _).symm
  rw [Target.prod_plainFactors hm hf, (hperm.map _).prod_eq, List.map_append, List.prod_append,
    hwanted, hnegative]
  generalize ((Target.plainFactors wanted).map (Expr.value m)).prod = taken
  generalize (rest.map (Expr.value m)).prod = left
  have hsign := hm.signOf_mul_self (Target.isNegative wanted)
  generalize m.signOf (Target.isNegative wanted) = sign at hsign ⊢
  calc m.signOf (Target.isNegative factors) * (taken * left)
      = sign * sign * (m.signOf (Target.isNegative factors) * (taken * left)) := by
        rw [hsign, one_mul]
    _ = _ := by ring

theorem sum_sumRest? (hp : Target.Comparable m p) {terms rest : List Expr} {target : Expr}
    (hterms : ∀ t ∈ terms, t.Everywhere p) (ht : target.Everywhere p)
    (h : Target.sumRest? terms target = some rest) :
    (terms.map (Expr.value m)).sum = target.value m + (rest.map (Expr.value m)).sum := by
  obtain ⟨wanted, rfl, hrest⟩ := Target.exists_of_sumRest? h
  have hregular := fun t h => (hterms t h).mono hp.regular
  have hwanted := fun t h => (ht.terms t h).mono hp.regular
  have hperm := Target.perm_of_leftover? (Target.regular_plainTerms hregular)
    (Target.regular_plainTerms hwanted) hrest
  rw [← Target.sum_plainTerms hp.pair hterms, (hperm.map _).sum_eq, List.map_append, List.sum_append,
    Target.sum_plainTerms hp.pair ht.terms, Expr.value_sum]

/-- A product that is `-1` times the negated target has the value of the target. Here it matters that
the negated target is not `-1` itself: the two factors are different ones. -/
theorem Related.isNegatedPair (hr : r.Related m rel p) (hm : m.Signed)
    (hp : ∀ e, p e → Regular e) {factors : List Expr} (hf : ∀ f ∈ factors, f.Everywhere p)
    (h : r.isNegatedPair factors = true) :
    (Expr.prod factors).value m = r.target.literal.value m := by
  have hliteral := hr.literal.mono hp
  unfold Replacement.isNegatedPair at h
  simp only [Bool.and_eq_true, beq_iff_eq, List.any_eq_true] at h
  obtain ⟨⟨hlength, a, ha, hvalue⟩, b, hb, heq⟩ := h
  rw [hr.targetNegated] at heq
  have ha' := Expr.eq_minusOne_of_isValue ((hf a ha).mono hp) hvalue
  have hb' := Expr.eq_of_beq ((hf b hb).mono hp) (Expr.regular_neg hliteral) heq
  have hapart : b ≠ a := by
    rintro rfl
    have := hr.apart
    rw [hr.targetNegated, ← hb', hvalue] at this
    cases this
  obtain ⟨x, y, rfl⟩ := List.length_eq_two.1 hlength
  have hpair : (a = x ∧ b = y) ∨ (a = y ∧ b = x) := by
    rcases List.mem_pair.1 ha with rfl | rfl <;> rcases List.mem_pair.1 hb with rfl | rfl
    · exact (hapart rfl).elim
    · exact .inl ⟨rfl, rfl⟩
    · exact .inr ⟨rfl, rfl⟩
    · exact (hapart rfl).elim
  have hproduct : (Expr.prod [x, y]).value m = a.value m * b.value m := by
    rcases hpair with ⟨rfl, rfl⟩ | ⟨rfl, rfl⟩
    · simp
    · simp [mul_comm]
  rw [hproduct, ha', hb', Expr.value_minusOne, Expr.value_neg hm hliteral, hm.sign_mul_cancel]

/-- What takes the place of a node is related to it. -/
theorem Related.acts (hr : r.Related m rel p) (hm : m.Signed) (hrel : m.Compatible rel)
    (hp : Target.Comparable m p) {e e' : Expr} (he : e.Everywhere p) (h : r.Acts e e') :
    rel (e'.value m) (e.value m) := by
  have hregular := he.mono hp.regular
  have hliteral := hr.literal.mono hp.regular
  cases h with
  | literal heq =>
    rw [Expr.eq_of_beq hregular hliteral heq]
    exact hr.rel
  | negated _ heq =>
    rw [hr.targetNegated] at heq
    rw [Expr.eq_of_beq hregular (Expr.regular_neg hliteral) heq, hr.negated,
      Expr.value_neg hm hliteral, Expr.value_neg hm hr.value]
    exact hrel.mul (hrel.refl _) hr.rel
  | @product factors rest negative hrest =>
    have hsign : ((if negative then [Expr.minusOne] else []).map (Expr.value m)).prod =
        m.signOf negative := by
      cases negative <;> simp [Meaning.signOf]
    rw [Expr.value_prod, prod_productRest? hm hregular.factors hliteral hrest,
      Expr.value_unwrap_prod, List.map_append, List.map_append, List.prod_append, List.prod_append,
      hsign, prod_asFactors]
    exact hrel.mul (hrel.mul hr.rel (hrel.refl _)) (hrel.refl _)
  | sum hrest =>
    rw [Expr.value_sum, sum_sumRest? hp he.terms hr.literal hrest, Expr.value_unwrap_sum,
      List.map_append, List.sum_append, sum_asTerms]
    exact hrel.add hr.rel (hrel.refl _)
  | pair hpair =>
    rw [hr.isNegatedPair hm hp.regular he.factors hpair]
    exact hr.rel

/-- Replacing a target by something related to it gives a related expression. -/
theorem Related.apply (hr : r.Related m rel p) (hm : m.Signed) (hrel : m.Compatible rel)
    (hp : Target.Comparable m p) {e : Expr} (he : e.Everywhere p) :
    rel ((r.apply e).value m) (e.value m) := by
  induction he with
  | @intro e here parts ih =>
    cases hat : r.actsAt e with
    | true => exact hr.acts hm hrel hp (.intro here parts) (acts_apply hat)
    | false =>
      cases e with
      | num n =>
        rw [apply_num hat]
        exact hrel.refl _
      | sym name =>
        rw [apply_sym hat]
        exact hrel.refl _
      | prod factors =>
        rw [apply_prod hat, Expr.value_prod, Expr.value_prod, List.map_map]
        exact hrel.prod (Meaning.Compatible.forall₂ ih)
      | sum terms =>
        rw [apply_sum hat, Expr.value_sum, Expr.value_sum, List.map_map]
        exact hrel.sum (Meaning.Compatible.forall₂ ih)
      | pow base exponent =>
        rw [apply_pow hat, Expr.value_pow, Expr.value_pow]
        exact hrel.pow (ih _ (by simp [Expr.children])) (ih _ (by simp [Expr.children]))
      | call f functional subscript superscript =>
        rw [apply_call hat, Expr.value_call, Expr.value_call, List.map_map, List.map_map,
          List.map_map]
        refine hrel.call f ?_ ?_ ?_ <;> refine Meaning.Compatible.forall₂ fun e he => ih e ?_
        · simp [Expr.children, he]
        · simp [Expr.children, he]
        · simp [Expr.children, he]
      | deriv body vars => exact (hp.regular _ here).elim
      | integral body var lower upper => exact (hp.regular _ here).elim

end

end Replacement

theorem Target.within_eq (tree target : Expr) :
    (Target.within tree target).literal = target ∧
      (Target.within tree target).negated = target.neg := by
  unfold Target.within
  dsimp only
  split <;> exact ⟨rfl, rfl⟩

namespace Expr

/-- If a replacement is related to a target, then replacing the target in a tree gives a related
tree. -/
theorem rel_replace {rel : R → R → Prop} {p : Expr → Prop} (hm : m.Signed)
    (hrel : m.Compatible rel) (hp : Target.Comparable m p) {tree target result : Expr}
    (htree : tree.Everywhere p) (htarget : target.Everywhere p)
    (hresult : result.Everywhere Regular) (hapart : target.neg.isValue (-1) = false)
    (h : rel (result.value m) (target.value m)) :
    rel ((tree.replace target result).value m) (tree.value m) := by
  have hwithin := Target.within_eq tree target
  refine Replacement.Related.apply (r := ⟨Target.within tree target, result, result.neg⟩)
    ⟨?_, ?_, hresult, rfl, ?_, ?_⟩ hm hrel hp htree
  · rw [hwithin.1]
    exact htarget
  · rw [hwithin.1, hwithin.2]
  · rw [hwithin.2]
    exact hapart
  · rw [hwithin.1]
    exact h

end Expr

end Workings

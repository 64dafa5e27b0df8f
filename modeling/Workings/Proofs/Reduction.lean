import Mathlib.Algebra.Order.BigOperators.Group.List
import Workings.Proofs.Naturals

/-!
# Reductions

`Expr.Reduces a b` says that `b` may stand where `a` stood in a calculation with natural numbers: it
has the same value for every assignment of integers to the symbols, and is not larger. Changing a part
of a tree to something it reduces to reduces the tree (`Expr.Reduces.replace`).
-/

namespace Workings

open Workings.Expr (Everywhere Plain)

namespace Expr

/-! ### Magnitudes -/

section

variable {w : ℕ}

@[simp]
theorem bulk_sum (terms : List Expr) : (sum terms).bulk w = (terms.map (bulk w)).sum :=
  value_sum _ terms

@[simp]
theorem bulk_prod (factors : List Expr) :
    (prod factors).bulk w = (factors.map (bulk w)).prod :=
  value_prod _ factors

@[simp]
theorem bulk_num (n : Number) : (num n).bulk w = max 1 n.toInt.natAbs :=
  value_num _ _

theorem bulk_power (k : Int64) : (pow 10 (.int k)).bulk w = 10 ^ max 1 k.toInt.natAbs := by
  show max 1 (value (Meaning.bulks w) 10) ^ value (Meaning.bulks w) (.int k) = _
  rfl

theorem one_le_bulk (hw : 1 ≤ w) {e : Expr} (he : e.Everywhere Plain) : 1 ≤ e.bulk w := by
  induction he with
  | @intro e here _ ih =>
    cases e with
    | num n =>
      cases n with
      | int n => exact le_max_left _ _
      | float x => exact here.elim
    | sym name => exact hw
    | sum terms =>
      obtain ⟨t, rest, rfl⟩ := List.exists_cons_of_ne_nil here
      rw [bulk_sum, List.map_cons, List.sum_cons]
      exact le_trans (ih t (by simp [children])) (Nat.le_add_right _ _)
    | prod factors =>
      rw [bulk_prod]
      refine List.one_le_prod_of_one_le fun a ha => ?_
      obtain ⟨f, hf, rfl⟩ := List.mem_map.1 ha
      exact ih f hf
    | pow base exponent =>
      obtain ⟨rfl, k, rfl, -⟩ := here
      rw [bulk_power]
      exact Nat.one_le_pow _ _ (by decide)
    | call _ _ _ _ | deriv _ _ | integral _ _ _ _ => exact here.elim

theorem one_le_magnitude {e : Expr} (he : e.Everywhere Plain) : 1 ≤ e.magnitude :=
  one_le_bulk le_rfl he

theorem bulk_le_sum {terms : List Expr} {t : Expr} (ht : t ∈ terms) :
    t.bulk w ≤ (sum terms).bulk w := by
  rw [bulk_sum]
  exact List.single_le_sum (fun _ _ => Nat.zero_le _) _ (List.mem_map_of_mem ht)

theorem bulk_le_prod (hw : 1 ≤ w) {factors : List Expr} (h : ∀ f ∈ factors, f.Everywhere Plain)
    {f : Expr} (hf : f ∈ factors) : f.bulk w ≤ (prod factors).bulk w := by
  rw [bulk_prod]
  refine List.single_le_prod (fun a ha => ?_) _ (List.mem_map_of_mem hf)
  obtain ⟨g, hg, rfl⟩ := List.mem_map.1 ha
  exact one_le_bulk hw (h g hg)

end

theorem sum_between {f : Expr → ℤ} {g : Expr → ℕ} {es : List Expr}
    (h : ∀ e ∈ es, 0 ≤ f e ∧ f e ≤ g e) :
    0 ≤ (es.map f).sum ∧ (es.map f).sum ≤ ((es.map g).sum : ℕ) := by
  induction es with
  | nil => simp
  | cons e es ih =>
    obtain ⟨hlow, hhigh⟩ := h e (by simp)
    obtain ⟨ihlow, ihhigh⟩ := ih fun e he => h e (by simp [he])
    simp only [List.map_cons, List.sum_cons, Nat.cast_add]
    omega

theorem prod_between {f : Expr → ℤ} {g : Expr → ℕ} {es : List Expr}
    (h : ∀ e ∈ es, 0 ≤ f e ∧ f e ≤ g e) :
    0 ≤ (es.map f).prod ∧ (es.map f).prod ≤ ((es.map g).prod : ℕ) := by
  induction es with
  | nil => simp
  | cons e es ih =>
    obtain ⟨hlow, hhigh⟩ := h e (by simp)
    obtain ⟨ihlow, ihhigh⟩ := ih fun e he => h e (by simp [he])
    simp only [List.map_cons, List.prod_cons, Nat.cast_mul]
    exact ⟨Int.mul_nonneg hlow ihlow, Int.mul_le_mul hhigh ihhigh ihlow (Int.natCast_nonneg _)⟩

/-- With every symbol `w`, the value of an expression is at most its magnitude. -/
theorem value_le_bulk (w : ℕ) {e : Expr} (he : e.Everywhere Plain) :
    0 ≤ e.value (.integers fun _ => w) ∧ e.value (.integers fun _ => w) ≤ e.bulk w := by
  induction he with
  | @intro e here _ ih =>
    cases e with
    | num n =>
      cases n with
      | int n =>
        have hn : 0 ≤ n.toInt := here
        refine ⟨hn, ?_⟩
        show n.toInt ≤ ((max 1 n.toInt.natAbs : ℕ) : ℤ)
        omega
      | float x => exact here.elim
    | sym name => exact ⟨Int.natCast_nonneg w, le_refl (w : ℤ)⟩
    | sum terms =>
      rw [value_sum, bulk_sum]
      exact sum_between ih
    | prod factors =>
      rw [value_prod, bulk_prod]
      exact prod_between ih
    | pow base exponent =>
      obtain ⟨rfl, k, rfl, hlow, hhigh⟩ := here
      rw [bulk_power]
      show 0 ≤ (10 : ℤ) ^ k.toInt.toNat ∧ (10 : ℤ) ^ k.toInt.toNat ≤ _
      have hexponent : max 1 k.toInt.natAbs = k.toInt.toNat := by omega
      rw [hexponent]
      exact ⟨Int.pow_nonneg (by decide), le_of_eq (by push_cast; rfl)⟩
    | call _ _ _ _ | deriv _ _ | integral _ _ _ _ => exact here.elim

/-- With every symbol one, the value of an expression is at most its magnitude. -/
theorem value_le_magnitude {e : Expr} (he : e.Everywhere Plain) :
    0 ≤ e.value (.integers fun _ => 1) ∧ e.value (.integers fun _ => 1) ≤ e.magnitude :=
  value_le_bulk 1 he

/-! ### Reductions -/

/-- `b` may stand where `a` stood: it has the value of `a`, is not larger, whatever a symbol counts as,
and a number that can stand in a power of ten is kept. -/
structure Reduces (a b : Expr) : Prop where
  plain : b.Everywhere Plain
  value : ∀ symbols, b.value (.integers symbols) = a.value (.integers symbols)
  bulk : ∀ w, 1 ≤ w → b.bulk w ≤ a.bulk w
  small : ∀ n : Int64, n.toInt ≤ 18 → a = .int n → b = .int n

namespace Reduces

variable {a b c : Expr}

theorem magnitude (h : Reduces a b) : b.magnitude ≤ a.magnitude :=
  h.bulk 1 le_rfl

theorem refl (ha : a.Everywhere Plain) : Reduces a a :=
  ⟨ha, fun _ => rfl, fun _ _ => le_refl _, fun _ _ h => h⟩

theorem trans (hab : Reduces a b) (hbc : Reduces b c) : Reduces a c where
  plain := hbc.plain
  value symbols := (hbc.value symbols).trans (hab.value symbols)
  bulk w hw := (hbc.bulk w hw).trans (hab.bulk w hw)
  small n hn h := hbc.small n hn (hab.small n hn h)

theorem of_replaceable (ha : a.Replaceable) (hb : b.Everywhere Plain)
    (hvalue : ∀ symbols, b.value (.integers symbols) = a.value (.integers symbols))
    (hbulk : ∀ w, 1 ≤ w → b.bulk w ≤ a.bulk w) : Reduces a b where
  plain := hb
  value := hvalue
  bulk := hbulk
  small n hn h := absurd (ha n h) (Int.not_lt.2 hn)

/-- A number is never larger than what it is the value of. -/
theorem to_int (ha : a.Everywhere Plain) {n : Int64}
    (hvalue : ∀ symbols, a.value (.integers symbols) = n.toInt) : Reduces a (.int n) := by
  have hnonneg := (value_le_bulk 1 ha).1
  rw [hvalue] at hnonneg
  refine ⟨.num hnonneg, fun symbols => (hvalue symbols).symm, fun w hw => ?_, fun k _ hk => ?_⟩
  · have hhigh := (value_le_bulk w ha).2
    have hone := one_le_bulk hw ha
    rw [hvalue] at hhigh
    rw [int, bulk_num]
    show max 1 n.toInt.natAbs ≤ _
    omega
  · rw [hk] at hvalue
    rw [Int64.toInt_inj.1 (hvalue fun _ => 0)]

/-- Changing a part of a tree to something that it reduces to reduces the tree. -/
theorem replace {tree part result : Expr} (h : Reduces part result)
    (hpart : part.Everywhere Plain) (hr : part.Replaceable) (htree : tree.Everywhere Plain) :
    Reduces tree (tree.replace part result) where
  plain := plain_replace htree hpart hr h.plain
  value symbols :=
    value_replace (Meaning.signed_integers symbols) htree hpart hr h.plain (h.value symbols)
  bulk w hw := bulk_replace htree hpart hr h.plain (h.bulk w hw)
  small n hn heq := by
    subst heq
    exact replace_small hpart hr htree.here hn

theorem forall_plain {as bs : List Expr} (h : List.Forall₂ Reduces as bs) :
    ∀ b ∈ bs, b.Everywhere Plain := by
  induction h with
  | nil => exact fun _ hmem => nomatch hmem
  | cons hab _ ih => exact List.forall_mem_cons.2 ⟨hab.plain, ih⟩

theorem map_value {as bs : List Expr} (h : List.Forall₂ Reduces as bs) (symbols : String → ℤ) :
    bs.map (Expr.value (.integers symbols)) = as.map (Expr.value (.integers symbols)) := by
  induction h with
  | nil => rfl
  | cons hab _ ih => rw [List.map_cons, List.map_cons, hab.value, ih]

theorem forall₂_bulk {as bs : List Expr} (h : List.Forall₂ Reduces as bs) {w : ℕ} (hw : 1 ≤ w) :
    List.Forall₂ (· ≤ ·) (bs.map (Expr.bulk w)) (as.map (Expr.bulk w)) := by
  induction h with
  | nil => exact .nil
  | cons hab _ ih => exact .cons (hab.bulk w hw) ih

/-- The terms of a sum may be reduced one by one. -/
theorem sum {as bs : List Expr} (h : List.Forall₂ Reduces as bs) (hne : as ≠ []) :
    Reduces (.sum as) (.sum bs) := by
  refine of_replaceable (replaceable_of_not_number rfl) ?_ (fun symbols => ?_) fun w hw => ?_
  · refine .sum (fun hnil => hne ?_) (forall_plain h)
    rw [hnil] at h
    exact List.forall₂_nil_right_iff.1 h
  · rw [value_sum, value_sum, map_value h]
  · rw [bulk_sum, bulk_sum]
    exact (Meaning.compatible_bulks w).sum (forall₂_bulk h hw)

/-- The factors of a product may be reduced one by one. -/
theorem prod {as bs : List Expr} (h : List.Forall₂ Reduces as bs) :
    Reduces (.prod as) (.prod bs) := by
  refine of_replaceable (replaceable_of_not_number rfl) ?_ (fun symbols => ?_) fun w hw => ?_
  · exact .prod trivial (forall_plain h)
  · rw [value_prod, value_prod, map_value h]
  · rw [bulk_prod, bulk_prod]
    exact (Meaning.compatible_bulks w).prod (forall₂_bulk h hw)

end Reduces

end Expr

end Workings

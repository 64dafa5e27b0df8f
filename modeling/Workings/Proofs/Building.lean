import Workings.Proofs.Meaning

/-!
# The value of normalized nodes

The normalizing constructors drop what does not count: zeros of a sum, ones of a product, the exponent
one. They find it by comparing numbers, so on expressions in which no number is a float the normalized
node has the value of the node it stands for (`Expr.value_buildSum`, `Expr.value_buildProd`,
`Expr.value_buildPow`), and it is made of the same parts (`Expr.everywhere_buildSum` and so on).
`Expr.Denotes m e a` says both of an expression, so that a rule that builds one can be followed once.
-/

namespace Workings

variable {R : Type*} [CommSemiring R] {m : Meaning R}

/-- The laws by which parts of a node are dropped. -/
structure Meaning.Normalizes (m : Meaning R) : Prop where
  zero : m.num 0 = 0
  one : m.num 1 = 1
  pow_one : ∀ b, m.pow b 1 = b
  pow_zero : ∀ b, m.pow b 0 = 1
  one_pow : ∀ c, m.pow 1 c = 1

namespace Expr

/-- A node that is not a float. -/
def Unrounded : Expr → Prop
  | .num (.float _) => False
  | _ => True

theorem Unrounded.exists_int {n : Number} (h : Unrounded (.num n)) : ∃ k : Int64, n = .int k := by
  cases n with
  | float x => exact h.elim
  | int k => exact ⟨k, rfl⟩

theorem Regular.unrounded {e : Expr} (h : e.Regular) : e.Unrounded := by
  cases e with
  | num n =>
    cases n with
    | float x => exact h.elim
    | int k => trivial
  | sym _ | sum _ | prod _ | pow _ _ | call _ _ _ _ | deriv _ _ | integral _ _ _ _ => trivial

theorem eq_int_of_isValue {e : Expr} {k : Int64} (he : e.Everywhere Unrounded)
    (h : e.isValue (.int k) = true) : e = .num (.int k) := by
  cases e with
  | num n =>
    obtain ⟨j, rfl⟩ := Unrounded.exists_int he.here
    exact congrArg (fun k => Expr.num (.int k)) (beq_iff_eq.1 h)
  | sym _ | sum _ | prod _ | pow _ _ | call _ _ _ _ | deriv _ _ | integral _ _ _ _ => cases h

/-- If the expression compares equal to an integer, it has the value of that integer. -/
def Faithful (m : Meaning R) (e : Expr) : Prop :=
  ∀ k : Int64, e.isValue (.int k) = true → e.value m = m.num (.int k)

theorem faithful_of_unrounded {e : Expr} (he : e.Everywhere Unrounded) : e.Faithful m := by
  intro k h
  rw [eq_int_of_isValue he h, value_num]

theorem everywhere_faithful {e : Expr} (he : e.Everywhere Unrounded) : e.Everywhere (Faithful m) := by
  induction he with
  | intro here parts ih => exact .intro (faithful_of_unrounded (.intro here parts)) ih

/-! ### Sums -/

section

variable {p : Expr → Prop}

theorem everywhere_flatTerms {terms : List Expr} (h : ∀ t ∈ terms, t.Everywhere p) :
    ∀ t ∈ flatTerms terms, t.Everywhere p := by
  fun_induction flatTerms terms with
  | case1 => exact h
  | case2 inner rest ih =>
    obtain ⟨hinner, hrest⟩ := List.forall_mem_cons.1 h
    intro t ht
    rcases List.mem_append.1 ht with ht | ht
    · exact hinner.terms t ht
    · exact ih hrest t ht
  | case3 term rest _ _ ih => exact ih (List.forall_mem_cons.1 h).2
  | case4 term rest _ _ ih =>
    obtain ⟨hterm, hrest⟩ := List.forall_mem_cons.1 h
    exact List.forall_mem_cons.2 ⟨hterm, ih hrest⟩

/-- A property of all sums and of zero is kept by normalization. -/
theorem everywhere_buildSum (hzero : p 0) (hsum : ∀ terms, p (.sum terms)) {terms : List Expr}
    (h : ∀ t ∈ terms, t.Everywhere p) : (buildSum terms).Everywhere p := by
  have hflat := everywhere_flatTerms h
  unfold buildSum sumOf
  split
  · exact .num hzero
  · rename_i term hterm
    exact hflat term (by simp [hterm])
  · exact .sum (hsum _) hflat

end

theorem sum_flatTerms (hzero : m.num 0 = 0) {terms : List Expr}
    (h : ∀ t ∈ terms, t.Faithful m) :
    ((flatTerms terms).map (value m)).sum = (terms.map (value m)).sum := by
  fun_induction flatTerms terms with
  | case1 => rfl
  | case2 inner rest ih =>
    rw [List.map_append, List.sum_append, ih fun t ht => h t (by simp [ht]), List.map_cons,
      List.sum_cons, value_sum]
  | case3 term rest _ hvalue ih =>
    have hterm : term.value m = 0 := (h term (by simp) 0 hvalue).trans hzero
    rw [List.map_cons, List.sum_cons, ih fun t ht => h t (by simp [ht]), hterm, zero_add]
  | case4 term rest _ _ ih =>
    rw [List.map_cons, List.sum_cons, ih fun t ht => h t (by simp [ht]), List.map_cons,
      List.sum_cons]

theorem value_sumOf (hzero : m.num 0 = 0) (terms : List Expr) :
    (sumOf terms).value m = (terms.map (value m)).sum := by
  unfold sumOf
  split
  · exact hzero
  · simp
  · rw [value_sum]

/-- A normalized sum has the value of the sum if its terms are faithful. -/
theorem value_buildSum_of_faithful (hzero : m.num 0 = 0) {terms : List Expr}
    (h : ∀ t ∈ terms, t.Faithful m) :
    (buildSum terms).value m = (terms.map (value m)).sum :=
  (value_sumOf hzero _).trans (sum_flatTerms hzero h)

/-- A normalized sum has the value of the sum. -/
theorem value_buildSum (hzero : m.num 0 = 0) {terms : List Expr}
    (h : ∀ t ∈ terms, t.Everywhere Unrounded) :
    (buildSum terms).value m = (terms.map (value m)).sum :=
  value_buildSum_of_faithful hzero fun t ht => faithful_of_unrounded (h t ht)

/-! ### Products -/

section

variable {p : Expr → Prop}

/-- A property that products hand down to their factors is kept when products are opened. -/
theorem forall_flatFactors (hparts : ∀ inner, p (.prod inner) → ∀ f ∈ inner, p f) {factors : List Expr}
    (h : ∀ f ∈ factors, p f) : ∀ f ∈ flatFactors factors, p f := by
  fun_induction flatFactors factors with
  | case1 => exact h
  | case2 inner rest ih =>
    obtain ⟨hinner, hrest⟩ := List.forall_mem_cons.1 h
    intro f hf
    rcases List.mem_append.1 hf with hf | hf
    · exact hparts inner hinner f hf
    · exact ih hrest f hf
  | case3 factor rest _ _ ih => exact ih (List.forall_mem_cons.1 h).2
  | case4 factor rest _ _ ih =>
    obtain ⟨hfactor, hrest⟩ := List.forall_mem_cons.1 h
    exact List.forall_mem_cons.2 ⟨hfactor, ih hrest⟩

theorem everywhere_flatFactors {factors : List Expr} (h : ∀ f ∈ factors, f.Everywhere p) :
    ∀ f ∈ flatFactors factors, f.Everywhere p :=
  forall_flatFactors (fun _ hinner => hinner.factors) h

theorem everywhere_prodOf (hone : p 1) {factors : List Expr} (hprod : p (.prod factors))
    (h : ∀ f ∈ factors, f.Everywhere p) : (prodOf factors).Everywhere p := by
  unfold prodOf
  split
  · exact .num hone
  · exact h _ (by simp)
  · exact .prod hprod h

/-- A property of products without a zero, of zero and of one is kept by normalization. -/
theorem everywhere_buildProd (hzero : p 0) (hone : p 1)
    (hprod : ∀ factors, factors.any (·.isValue 0) = false → p (.prod factors))
    {factors : List Expr} (h : ∀ f ∈ factors, f.Everywhere p) :
    (buildProd factors).Everywhere p := by
  unfold buildProd
  dsimp only
  split
  · exact .num hzero
  · rename_i hany
    exact everywhere_prodOf hone (hprod _ (Bool.eq_false_iff.2 hany)) (everywhere_flatFactors h)

end

theorem flatFactors_cons {factor : Expr} (h : ∀ inner, factor ≠ .prod inner) (rest : List Expr) :
    flatFactors (factor :: rest) =
      if factor.isValue 1 then flatFactors rest else factor :: flatFactors rest := by
  cases factor with
  | prod inner => exact absurd rfl (h inner)
  | num _ | sym _ | sum _ | pow _ _ | call _ _ _ _ | deriv _ _ | integral _ _ _ _ => rfl

theorem flatFactors_append (as bs : List Expr) :
    flatFactors (as ++ bs) = flatFactors as ++ flatFactors bs := by
  fun_induction flatFactors as with
  | case1 => rfl
  | case2 inner rest ih => rw [List.cons_append, flatFactors, ih, List.append_assoc]
  | case3 factor rest hprod hvalue ih =>
    rw [List.cons_append, flatFactors_cons hprod, if_pos hvalue, ih]
  | case4 factor rest hprod hvalue ih =>
    rw [List.cons_append, flatFactors_cons hprod, if_neg hvalue, ih, List.cons_append]

theorem prod_flatFactors_of_faithful (hone : m.num 1 = 1) {factors : List Expr}
    (h : ∀ f ∈ factors, f.Faithful m) :
    ((flatFactors factors).map (value m)).prod = (factors.map (value m)).prod := by
  fun_induction flatFactors factors with
  | case1 => rfl
  | case2 inner rest ih =>
    rw [List.map_append, List.prod_append, ih fun f hf => h f (by simp [hf]), List.map_cons,
      List.prod_cons, value_prod]
  | case3 factor rest _ hvalue ih =>
    have hfactor : factor.value m = 1 := (h factor (by simp) 1 hvalue).trans hone
    rw [List.map_cons, List.prod_cons, ih fun f hf => h f (by simp [hf]), hfactor, one_mul]
  | case4 factor rest _ _ ih =>
    rw [List.map_cons, List.prod_cons, ih fun f hf => h f (by simp [hf]), List.map_cons,
      List.prod_cons]

theorem prod_flatFactors (hone : m.num 1 = 1) {factors : List Expr}
    (h : ∀ f ∈ factors, f.Everywhere Unrounded) :
    ((flatFactors factors).map (value m)).prod = (factors.map (value m)).prod :=
  prod_flatFactors_of_faithful hone fun f hf => faithful_of_unrounded (h f hf)

theorem value_prodOf (hone : m.num 1 = 1) (factors : List Expr) :
    (prodOf factors).value m = (factors.map (value m)).prod := by
  unfold prodOf
  split
  · exact hone
  · simp
  · rw [value_prod]

/-- A normalized product has the value of the product if zero times anything is zero, and its factors are
faithful, also once they are opened. -/
theorem value_buildProd_of_faithful (hone : m.num 1 = 1) (hzero : ∀ a, m.num 0 * a = m.num 0)
    {factors : List Expr} (h : ∀ f ∈ factors, f.Faithful m)
    (hflat : ∀ f ∈ flatFactors factors, f.Faithful m) :
    (buildProd factors).value m = (factors.map (value m)).prod := by
  unfold buildProd
  dsimp only
  rw [← prod_flatFactors_of_faithful hone h]
  split
  · rename_i hany
    obtain ⟨e, he, hvalue⟩ := List.any_eq_true.1 hany
    have hnum : e.value m = m.num 0 := hflat e he 0 hvalue
    obtain ⟨before, after, hsplit⟩ := List.append_of_mem he
    rw [hsplit]
    simp only [List.map_append, List.map_cons, List.prod_append, List.prod_cons, hnum]
    rw [hzero, mul_comm, hzero]
    rfl
  · exact value_prodOf hone _

/-- A normalized product has the value of the product if zero times anything is zero. -/
theorem value_buildProd (hone : m.num 1 = 1) (hzero : ∀ a, m.num 0 * a = m.num 0)
    {factors : List Expr} (h : ∀ f ∈ factors, f.Everywhere Unrounded) :
    (buildProd factors).value m = (factors.map (value m)).prod :=
  value_buildProd_of_faithful hone hzero (fun f hf => faithful_of_unrounded (h f hf)) fun f hf =>
    faithful_of_unrounded (everywhere_flatFactors h f hf)

/-- A normalized product of two factors has the value of their product. -/
theorem value_buildProd_pair (hone : m.num 1 = 1) (hzero : m.num 0 = 0) {a b : Expr}
    (ha : a.Everywhere (Faithful m)) (hb : b.Everywhere (Faithful m)) :
    (buildProd [a, b]).value m = a.value m * b.value m := by
  have hfactors : ∀ f ∈ [a, b], f.Everywhere (Faithful m) :=
    List.forall_mem_cons.2 ⟨ha, List.forall_mem_singleton.2 hb⟩
  have hcancel (c : R) : m.num 0 * c = m.num 0 := by
    rw [hzero, zero_mul]
  rw [value_buildProd_of_faithful hone hcancel (fun f hf => (hfactors f hf).here) fun f hf =>
    (everywhere_flatFactors hfactors f hf).here]
  simp

/-! ### Powers -/

/-- A property of one and of the power itself is kept by normalization. -/
theorem everywhere_buildPow {p : Expr → Prop} (hone : p 1) {base exponent : Expr}
    (hpow : p (.pow base exponent)) (hb : base.Everywhere p) (he : exponent.Everywhere p) :
    (buildPow base exponent).Everywhere p := by
  unfold buildPow
  split
  · exact hb
  · split
    · exact .num hone
    · exact .intro hpow (List.forall_mem_cons.2 ⟨hb, List.forall_mem_singleton.2 he⟩)

/-- A normalized power has the value of the power. -/
theorem value_buildPow (hm : m.Normalizes) {base exponent : Expr}
    (hb : base.Everywhere Unrounded) (he : exponent.Everywhere Unrounded) :
    (buildPow base exponent).value m = m.pow (base.value m) (exponent.value m) := by
  have hzero : value m (.num (.int (Int64.ofNat 0))) = 0 := hm.zero
  have hone : value m (.num (.int (Int64.ofNat 1))) = 1 := hm.one
  unfold buildPow
  split
  · rename_i hvalue
    rw [eq_int_of_isValue he hvalue, hone, hm.pow_one]
  · split
    · rename_i hvalue
      refine Eq.trans hone ?_
      rcases Bool.or_eq_true_iff.1 hvalue with hvalue | hvalue
      · rw [eq_int_of_isValue he hvalue, hzero, hm.pow_zero]
      · rw [eq_int_of_isValue hb hvalue, hone, hm.one_pow]
    · rw [value_pow]

/-! ### What normalized nodes stand for -/

/-- The expression has no float in it, and its value is `a`. -/
structure Denotes (m : Meaning R) (e : Expr) (a : R) : Prop where
  unrounded : e.Everywhere Unrounded
  value : e.value m = a

/-- Expressions and their values, one by one. -/
abbrev DenoteAll (m : Meaning R) (es : List Expr) (as : List R) : Prop :=
  List.Forall₂ (Denotes m) es as

theorem denoteAll_iff {es : List Expr} {as : List R} :
    DenoteAll m es as ↔ (∀ e ∈ es, e.Everywhere Unrounded) ∧ es.map (value m) = as := by
  induction es generalizing as with
  | nil => simp [DenoteAll, eq_comm]
  | cons e es ih =>
    constructor
    · rintro (_ | ⟨he, hes⟩)
      obtain ⟨hunrounded, hvalues⟩ := ih.1 hes
      exact ⟨List.forall_mem_cons.2 ⟨he.unrounded, hunrounded⟩, by rw [List.map_cons, he.value, hvalues]⟩
    · rintro ⟨hunrounded, rfl⟩
      obtain ⟨he, hes⟩ := List.forall_mem_cons.1 hunrounded
      exact .cons ⟨he, rfl⟩ (ih.2 ⟨hes, rfl⟩)

theorem denotes_value {e : Expr} (h : e.Everywhere Unrounded) : Denotes m e (e.value m) :=
  ⟨h, rfl⟩

theorem denotes_int {k : Int64} {a : R} (h : m.num (.int k) = a) : Denotes m (.num (.int k)) a :=
  ⟨.num trivial, by rw [value_num, h]⟩

section

variable (hm : m.Normalizes)

include hm

theorem denotes_buildSum {terms : List Expr} {as : List R} (h : DenoteAll m terms as) :
    Denotes m (buildSum terms) as.sum := by
  obtain ⟨hunrounded, rfl⟩ := denoteAll_iff.1 h
  exact ⟨everywhere_buildSum trivial (fun _ => trivial) hunrounded, value_buildSum hm.zero hunrounded⟩

theorem denotes_buildProd {factors : List Expr} {as : List R} (h : DenoteAll m factors as) :
    Denotes m (buildProd factors) as.prod := by
  obtain ⟨hunrounded, rfl⟩ := denoteAll_iff.1 h
  refine ⟨everywhere_buildProd trivial trivial (fun _ _ => trivial) hunrounded,
    value_buildProd hm.one (fun a => ?_) hunrounded⟩
  rw [hm.zero, zero_mul]

theorem denotes_buildPow {base exponent : Expr} {b c : R} (hb : Denotes m base b)
    (hc : Denotes m exponent c) : Denotes m (buildPow base exponent) (m.pow b c) := by
  refine ⟨everywhere_buildPow trivial trivial hb.unrounded hc.unrounded, ?_⟩
  rw [value_buildPow hm hb.unrounded hc.unrounded, hb.value, hc.value]

end

end Expr

end Workings

import Workings.Calculus.Integral
import Workings.Proofs.Differentiating

/-!
# Differentiation takes integration back

If an antiderivative has no integral left in it, its derivative has the value of the integrand
(`Expr.value_differentiate_integrate`), in every field with a derivation in which the functions of the
tables have their chain rules.

An integral that is left may also be lost: a factor zero takes the whole product with it. That is why the
proof keeps track of where the zeros are (`Expr.Answer`): the antiderivative of a part counts only if it
comes with a factor that is not zero.
-/

namespace Workings

namespace Expr

/-- A node of an expression that is integrated: its number is an integer with a word on both sides of it,
and its function has one argument and nothing else. -/
def Integrable : Expr → Prop
  | .num n => ∃ k : Int64, n = .int k ∧ k ≠ Int64.minValue ∧ k ≠ Int64.maxValue
  | .call _ functional subscript superscript =>
    functional.length = 1 ∧ subscript = [] ∧ superscript = []
  | .deriv _ _ | .integral _ _ _ _ => False
  | .sym _ | .sum _ | .prod _ | .pow _ _ => True

/-- A node that is not an integral. -/
def Solved (e : Expr) : Prop :=
  e.shape ≠ .integral

variable {x : String}

theorem elementary_of_integrable {e : Expr} (h : e.Everywhere Integrable) :
    e.Everywhere (Elementary x) := by
  induction h with
  | @intro e here parts ih =>
    refine .intro ?_ ih
    cases e with
    | num n =>
      obtain ⟨k, rfl, -⟩ := here
      trivial
    | pow base exponent =>
      cases exponent with
      | num n =>
        obtain ⟨k, rfl, hk, -⟩ := (parts (.num n) (by simp [children])).here
        exact hk
      | sym _ | sum _ | prod _ | pow _ _ | call _ _ _ _ | deriv _ _ | integral _ _ _ _ => trivial
    | call f functional subscript superscript => exact ⟨here.1, here.2.2, .inl here.2.1⟩
    | deriv _ _ | integral _ _ _ _ => exact here.elim
    | sym _ | sum _ | prod _ => trivial

theorem solved_of_integrable {e : Expr} (h : e.Everywhere Integrable) : e.Everywhere Solved :=
  h.mono fun e he heq => by
    cases e with
    | integral _ _ _ _ => exact he
    | _ => cases heq

/-! ### What integration gives -/

/-- A node of an antiderivative: elementary or an integral, and if it is a product with a factor zero, no
integral is in it. -/
structure Answer (x : String) (e : Expr) : Prop where
  node : Elementary x e ∨ e.shape = .integral
  clear : ∀ factors, e = .prod factors → factors.any (·.isValue 0) = true →
    ∀ f ∈ factors, f.Everywhere Solved

theorem Answer.of_elementary {e : Expr} (h : Elementary x e) (hprod : ∀ factors, e ≠ .prod factors) :
    Answer x e :=
  ⟨.inl h, fun factors heq => absurd heq (hprod factors)⟩

theorem answer_int (k : Int64) : (Expr.num (.int k)).Everywhere (Answer x) :=
  .num (.of_elementary trivial nofun)

theorem answer_sym (name : String) : (Expr.sym name).Everywhere (Answer x) :=
  .intro (.of_elementary trivial nofun) nofun

theorem answer_call1 (name : String) {u : Expr} (hu : u.Everywhere (Answer x)) :
    (call1 name u).Everywhere (Answer x) :=
  .intro (.of_elementary ⟨rfl, rfl, .inl rfl⟩ nofun) (List.forall_mem_singleton.2 hu)

theorem answer_buildSum {terms : List Expr} (h : ∀ t ∈ terms, t.Everywhere (Answer x)) :
    (buildSum terms).Everywhere (Answer x) :=
  everywhere_buildSum (answer_int 0).here (fun _ => .of_elementary trivial nofun) h

theorem answer_buildProd {factors : List Expr} (h : ∀ f ∈ factors, f.Everywhere (Answer x)) :
    (buildProd factors).Everywhere (Answer x) := by
  refine everywhere_buildProd (answer_int 0).here (answer_int 1).here (fun _ hany => ?_) h
  refine ⟨.inl trivial, fun factors heq hzero => ?_⟩
  cases heq
  rw [hany] at hzero
  cases hzero

theorem answer_buildPow {base exponent : Expr} (hpow : Elementary x (.pow base exponent))
    (hb : base.Everywhere (Answer x)) (he : exponent.Everywhere (Answer x)) :
    (buildPow base exponent).Everywhere (Answer x) :=
  everywhere_buildPow (answer_int 1).here (.of_elementary hpow nofun) hb he

theorem answer_inverse {e : Expr} (he : e.Everywhere (Answer x)) :
    (buildPow e minusOne).Everywhere (Answer x) :=
  answer_buildPow (show Number.Whole (.int (-1)) by decide) he (answer_int (-1))

/-- What has no integral in it is an answer to itself. -/
theorem answer_of_integrable {e : Expr} (h : e.Everywhere Integrable) : e.Everywhere (Answer x) := by
  have helementary := elementary_of_integrable (x := x) h
  induction h with
  | @intro e here parts ih =>
    refine .intro ⟨.inl helementary.here, fun factors heq _ f hf => ?_⟩ fun part hpart =>
      ih part hpart (helementary.parts part hpart)
    subst heq
    exact solved_of_integrable (parts f hf)

theorem answer_indefinite {e : Expr} (h : e.Everywhere Integrable) :
    (e.indefinite x).Everywhere (Answer x) :=
  .intro ⟨.inr rfl, nofun⟩ (List.forall_mem_singleton.2 (answer_of_integrable h))

theorem answer_constantRule {e : Expr} (h : e.Everywhere Integrable) :
    (constantRule x e).Everywhere (Answer x) :=
  answer_buildProd
    (List.forall_mem_cons.2 ⟨answer_of_integrable h, List.forall_mem_singleton.2 (answer_sym x)⟩)

/-- One more than an integer with a word on both sides of it. -/
theorem Integrable.add_one {n : Number} (h : Integrable (.num n)) :
    ∃ k : Int64, n + 1 = .int k ∧ k ≠ Int64.minValue ∧ k.toInt = n.toInt + 1 := by
  obtain ⟨j, rfl, hmin, hmax⟩ := h
  have hlow := (Number.inRange_neg hmin).2
  have hhigh : j.toInt ≠ 2 ^ 63 - 1 := fun heq =>
    hmax (Int64.toInt_inj.1 (heq.trans (by decide)))
  have hbound := inRange_toInt j
  obtain ⟨hwhole, hvalue⟩ := Number.whole_ofInt (n := j.toInt + 1) (by
    obtain ⟨hlow', hhigh'⟩ := hbound
    omega)
  refine ⟨Int64.ofInt (j.toInt + 1), Number.exactOr_eq ⟨?_, ?_⟩ _, hwhole, hvalue⟩
  · obtain ⟨hlow', hhigh'⟩ := hbound
    show -2 ^ 63 ≤ j.toInt + 1
    omega
  · obtain ⟨hlow', hhigh'⟩ := hbound
    show j.toInt + 1 < 2 ^ 63
    omega

theorem answer_symbolRule (name : String) : (symbolRule x (.sym name)).Everywhere (Answer x) := by
  unfold symbolRule
  dsimp only
  split
  · have hsquare : (buildPow (.sym x) 2).Everywhere (Answer x) :=
      answer_buildPow (show Number.Whole 2 by decide) (answer_sym x) (answer_int 2)
    exact answer_buildProd (List.forall_mem_cons.2
      ⟨hsquare, List.forall_mem_singleton.2 (answer_inverse (answer_int 2))⟩)
  · exact answer_constantRule (.intro trivial nofun)

theorem answer_powerIntegral {base exponent : Expr}
    (h : (Expr.pow base exponent).Everywhere Integrable) :
    (powerIntegral x base exponent).Everywhere (Answer x) := by
  have hunsolved := answer_indefinite (x := x) h
  unfold powerIntegral
  dsimp only
  split
  · rename_i name n
    split
    · exact hunsolved
    · split
      · exact answer_call1 "ln" (answer_sym x)
      · obtain ⟨k, hk, hmin, -⟩ := Integrable.add_one (h.parts (.num n) (by simp [children])).here
        rw [hk]
        have hpower : (buildPow (.sym x) (.num (.int k))).Everywhere (Answer x) :=
          answer_buildPow hmin (answer_sym x) (answer_int k)
        exact answer_buildProd (List.forall_mem_cons.2
          ⟨hpower, List.forall_mem_singleton.2 (answer_inverse (answer_int k))⟩)
  · exact hunsolved

theorem answer_outerIntegral {name : String} {u inverse result : Expr}
    (hu : u.Everywhere (Answer x)) (hinverse : inverse.Everywhere (Answer x))
    (h : outerIntegral? x name u inverse = some result) : result.Everywhere (Answer x) := by
  have hpair {a b : Expr} (ha : a.Everywhere (Answer x)) (hb : b.Everywhere (Answer x)) :
      (buildProd [a, b]).Everywhere (Answer x) :=
    answer_buildProd (List.forall_mem_cons.2 ⟨ha, List.forall_mem_singleton.2 hb⟩)
  unfold outerIntegral? at h
  split at h
  · cases h
    exact answer_buildProd (List.forall_mem_cons.2 ⟨answer_int (-1), List.forall_mem_cons.2
      ⟨answer_call1 "cos" hu, List.forall_mem_singleton.2 hinverse⟩⟩)
  · cases h
    exact hpair (answer_call1 "sin" hu) hinverse
  · cases h
    exact hpair (answer_call1 "exp" hu) hinverse
  · split at h
    · split at h
      · cases h
        exact answer_buildSum (List.forall_mem_cons.2
          ⟨hpair hu (answer_call1 "ln" hu), List.forall_mem_singleton.2 (hpair (answer_int (-1)) hu)⟩)
      · cases h
    · cases h
  · cases h

/-- The derivative of an argument that is linear in the variable. -/
theorem exists_int_of_linear {u : Expr} (hu : u.Everywhere Integrable)
    (h : ¬ (!(u.differentiate x).isNumber || (u.differentiate x).isValue 0) = true) :
    ∃ k : Int64, k ≠ 0 ∧ u.differentiate x = .num (.int k) := by
  -- That no float comes up does not depend on what expressions stand for.
  have hunrounded : (u.differentiate x).Everywhere Unrounded :=
    (denotes_differentiate (Germ.derives x) (elementary_of_integrable hu)).unrounded
  generalize u.differentiate x = du at h hunrounded
  cases du with
  | num n =>
    obtain ⟨k, rfl⟩ := Unrounded.exists_int hunrounded.here
    refine ⟨k, fun hk => h ?_, rfl⟩
    rw [hk]
    rfl
  | sym _ | sum _ | prod _ | pow _ _ | call _ _ _ _ | deriv _ _ | integral _ _ _ _ =>
    exact absurd rfl h

/-- The cases in which a product is integrated: no factor mentions the variable, or one, or several. -/
theorem integrate_prod_cases (x : String) (factors : List Expr) :
    (factors.filter (·.mentions x) = [] ∧
      (prod factors).integrate x = constantRule x (.prod factors)) ∨
    (∃ f, factors.filter (·.mentions x) = [f] ∧
      (prod factors).integrate x =
        buildProd (factors.filter (!·.mentions x) ++ [f.integrate x])) ∨
    (prod factors).integrate x = (prod factors).indefinite x := by
  have hpairs : ((factors.zip (factors.map (integrate x))).filter fun pair => pair.1.mentions x) =
      (factors.filter (·.mentions x)).map fun f => (f, f.integrate x) := by
    induction factors with
    | nil => rfl
    | cons f factors ih =>
      rw [List.map_cons, List.zip_cons_cons, List.filter_cons, List.filter_cons, ih]
      dsimp only
      split <;> rfl
  rw [integrate, stepIntegral, integrateAll_eq_map, constantFactorRule, hpairs]
  split
  · rename_i hnone
    exact .inl ⟨List.map_eq_nil_iff.1 hnone, rfl⟩
  · rename_i f solved hone
    obtain ⟨g, hg, heq⟩ := List.map_eq_singleton_iff.1 hone
    cases heq
    exact .inr (.inl ⟨_, hg, rfl⟩)
  · exact .inr (.inr rfl)

theorem answer_linearArgumentRule {f : Signature} {functional subscript superscript : List Expr}
    (h : (Expr.call f functional subscript superscript).Everywhere Integrable) :
    (linearArgumentRule x f functional subscript superscript).Everywhere (Answer x) := by
  have hunsolved := answer_indefinite (x := x) h
  unfold linearArgumentRule
  dsimp only
  split
  · rename_i u
    split
    · exact hunsolved
    · rename_i hlinear
      have hu := h.parts u (by simp [children])
      obtain ⟨k, -, hk⟩ := exists_int_of_linear hu hlinear
      rw [hk]
      cases hrule : outerIntegral? x f.name u (buildPow (.num (.int k)) minusOne) with
      | none => exact hunsolved
      | some result =>
        exact answer_outerIntegral (answer_of_integrable hu) (answer_inverse (answer_int k)) hrule
  · exact hunsolved

/-- What integration gives is an answer. -/
theorem answer_integrate {e : Expr} (h : e.Everywhere Integrable) :
    (e.integrate x).Everywhere (Answer x) := by
  induction h with
  | @intro e here parts ih =>
    have he : e.Everywhere Integrable := .intro here parts
    cases e with
    | num n => exact answer_constantRule he
    | sym name => exact answer_symbolRule name
    | sum terms =>
      rw [integrate, stepIntegral, integrateAll_eq_map]
      exact answer_buildSum (List.forall_mem_map.2 ih)
    | prod factors =>
      obtain ⟨-, hrule⟩ | ⟨f, hf, hrule⟩ | hrule := integrate_prod_cases x factors
      · rw [hrule]
        exact answer_constantRule he
      · rw [hrule]
        have hmem : f ∈ factors := List.mem_of_mem_filter (hf ▸ List.mem_singleton_self f)
        refine answer_buildProd (List.forall_mem_append.2 ⟨fun c hc => ?_, ?_⟩)
        · exact answer_of_integrable (parts c (List.mem_of_mem_filter hc))
        · exact List.forall_mem_singleton.2 (ih f hmem)
      · rw [hrule]
        exact answer_indefinite he
    | pow base exponent => exact answer_powerIntegral he
    | call f functional subscript superscript => exact answer_linearArgumentRule he
    | deriv _ _ | integral _ _ _ _ => exact here.elim

/-! ### What is left unsolved -/

theorem solved_of_isValue {e : Expr} {n : Number} (h : e.isValue n = true) : e.Everywhere Solved := by
  cases e with
  | num n => exact .num nofun
  | sym _ | sum _ | prod _ | pow _ _ | call _ _ _ _ | deriv _ _ | integral _ _ _ _ => cases h

theorem solved_of_flatTerms {terms : List Expr} (h : ∀ t ∈ flatTerms terms, t.Everywhere Solved) :
    ∀ t ∈ terms, t.Everywhere Solved := by
  fun_induction flatTerms terms with
  | case1 => exact h
  | case2 inner rest ih =>
    obtain ⟨hinner, hrest⟩ := List.forall_mem_append.1 h
    exact List.forall_mem_cons.2 ⟨.sum (by decide : Shape.sum ≠ Shape.integral) hinner, ih hrest⟩
  | case3 term rest _ hvalue ih => exact List.forall_mem_cons.2 ⟨solved_of_isValue hvalue, ih h⟩
  | case4 term rest _ _ ih =>
    obtain ⟨hterm, hrest⟩ := List.forall_mem_cons.1 h
    exact List.forall_mem_cons.2 ⟨hterm, ih hrest⟩

/-- A sum in which no integral is left has none in its terms. -/
theorem solved_of_buildSum {terms : List Expr} (h : (buildSum terms).Everywhere Solved) :
    ∀ t ∈ terms, t.Everywhere Solved := by
  refine solved_of_flatTerms ?_
  unfold buildSum sumOf at h
  split at h
  · rename_i hnil
    rw [hnil]
    exact nofun
  · rename_i t hsingle
    rw [hsingle]
    exact List.forall_mem_singleton.2 h
  · exact h.terms

theorem solved_of_prodOf {factors : List Expr} (h : (prodOf factors).Everywhere Solved) :
    ∀ f ∈ factors, f.Everywhere Solved := by
  unfold prodOf at h
  split at h
  · exact nofun
  · exact List.forall_mem_singleton.2 h
  · exact h.factors

/-- A product with an answer as its last factor, in which no integral is left, has none in that factor
unless another one is zero. -/
theorem solved_of_buildProd {factors : List Expr} {last : Expr} (hlast : last.Everywhere (Answer x))
    (hzero : (flatFactors factors).any (·.isValue 0) = false)
    (h : (buildProd (factors ++ [last])).Everywhere Solved) : last.Everywhere Solved := by
  unfold buildProd at h
  dsimp only at h
  rw [flatFactors_append, List.any_append, hzero, Bool.false_or] at h
  by_cases hprod : ∃ inner, last = .prod inner
  · obtain ⟨inner, rfl⟩ := hprod
    rw [flatFactors, flatFactors, List.append_nil] at h
    refine .prod (by decide : Shape.prod ≠ Shape.integral) ?_
    split at h
    · rename_i hany
      exact hlast.here.clear inner rfl hany
    · exact fun f hf => solved_of_prodOf h f (List.mem_append_right _ hf)
  · by_cases hnumber : last.isValue 0 = true ∨ last.isValue 1 = true
    · exact hnumber.elim solved_of_isValue solved_of_isValue
    · obtain ⟨hnot, hone⟩ := not_or.1 hnumber
      rw [flatFactors_cons fun inner heq => hprod ⟨inner, heq⟩, if_neg hone, flatFactors,
        List.any_cons, List.any_nil, Bool.or_false, if_neg hnot] at h
      exact solved_of_prodOf h last (List.mem_append_right _ (List.mem_singleton_self last))

/-! ### The derivative of an antiderivative -/

theorem Answer.unrounded {e : Expr} (h : e.Answer x) : e.Unrounded := by
  rcases h.node with helementary | hintegral
  · exact helementary.unrounded
  · cases e with
    | integral _ _ _ _ => trivial
    | _ => cases hintegral

theorem unrounded_of_integrable {e : Expr} (h : e.Everywhere Integrable) : e.Everywhere Unrounded :=
  unrounded_of_elementary (elementary_of_integrable (x := "") h)

theorem denotes_sym {R : Type*} [CommSemiring R] {m : Meaning R} (name : String) :
    Denotes m (.sym name) (m.sym name) :=
  denotes_value (.intro trivial nofun)

section

variable {R : Type*} [Field R] {m : Meaning R} {D : Derivation ℤ R R} (hm : m.Calculus D x)

include hm

theorem derivation_constantRule {e : Expr} (he : e.Everywhere Integrable)
    (hx : e.mentions x = false) : D ((constantRule x e).value m) = e.value m := by
  have hrule := denotes_buildProd hm.normalizes
    (.cons (denotes_value (unrounded_of_integrable he)) (.cons (denotes_sym x) .nil))
  have hconst := derivation_value_eq_zero hm.toDerives (elementary_of_integrable he) hx
  rw [constantRule, hrule.value]
  simp [D.leibniz, hconst, hm.sym_self]

/-- The derivative of an inverse of an integer. -/
theorem derivation_inverse (k : ℤ) : D (m.pow k (-1)) = 0 := by
  rw [hm.pow_neg_one, D.leibniz_inv, D.map_intCast, smul_zero]

/-- The power rule, read backwards. -/
theorem derivation_power {c : ℤ} (hc : (c : R) ≠ 0) :
    D (m.pow (m.sym x) c * m.pow c (-1)) = m.pow (m.sym x) (c - 1) := by
  rw [D.leibniz, derivation_inverse hm, hm.pow_const _ _ (D.map_intCast c), hm.sym_self,
    hm.pow_neg_one, smul_zero, zero_add, smul_eq_mul, mul_one, inv_mul_cancel_left₀ hc]

theorem derivation_symbolRule [CharZero R] (name : String) :
    D ((symbolRule x (.sym name)).value m) = (Expr.sym name).value m := by
  unfold symbolRule
  dsimp only
  split
  · rename_i hself
    obtain rfl := beq_iff_eq.1 hself
    have hn := hm.normalizes
    have htwo := denotes_two hm.toDerives
    have hrule := denotes_buildProd hn
      (.cons (denotes_buildPow hn (denotes_sym name) htwo)
        (.cons (denotes_buildPow hn htwo (denotes_minusOne hm.toDerives)) .nil))
    have hpower := derivation_power hm (c := 2) (by norm_num)
    rw [Int.cast_ofNat, show (2 : R) - 1 = 1 by norm_num, hm.pow_one] at hpower
    rw [hrule.value, List.prod_cons, List.prod_singleton, hpower]
    rfl
  · rename_i hother
    refine derivation_constantRule hm (.intro trivial nofun) ?_
    exact Bool.eq_false_iff.2 hother

theorem derivation_powerIntegral [CharZero R] {base exponent : Expr}
    (he : (Expr.pow base exponent).Everywhere Integrable)
    (hsolved : (powerIntegral x base exponent).Everywhere Solved) :
    D ((powerIntegral x base exponent).value m) = (Expr.pow base exponent).value m := by
  have hn := hm.normalizes
  unfold powerIntegral at hsolved ⊢
  dsimp only at hsolved ⊢
  split at hsolved
  · rename_i name n
    obtain ⟨k, hk, hmin, hvalue⟩ := Integrable.add_one (he.parts (.num n) (by simp [children])).here
    obtain ⟨j, rfl, -⟩ := (he.parts (.num n) (by simp [children])).here
    split at hsolved
    · exact absurd rfl hsolved.here
    · rename_i hname
      obtain rfl : name = x := by simpa using hname
      rw [if_neg hname]
      split
      · rename_i hminus
        obtain rfl : j = -1 := beq_iff_eq.1 hminus
        rw [(denotes_call1 "ln" (denotes_sym name)).value, Meaning.fn, hm.ln _ _ rfl, hm.sym_self,
          mul_one, value_pow, value_num, hm.num_eq (n := -1) (by decide)]
        push_cast
        rfl
      · rename_i hminus
        have hne : j.toInt + 1 ≠ 0 := by
          intro hzero
          have hj : j = -1 := Int64.toInt_inj.1 ((eq_neg_of_add_eq_zero_left hzero).trans (by decide))
          exact hminus (by rw [hj]; decide)
        have hpower := derivation_power hm (c := k.toInt) (by
          rw [hvalue]
          exact Int.cast_ne_zero.2 hne)
        have hnum : Denotes m (.num (.int k)) (k.toInt : R) := denotes_int (hm.num_int k)
        have hrule := denotes_buildProd hn
          (.cons (denotes_buildPow hn (denotes_sym name) hnum)
            (.cons (denotes_buildPow hn hnum (denotes_minusOne hm.toDerives)) .nil))
        rw [hk, hrule.value, List.prod_cons, List.prod_singleton, hpower, value_pow, value_num,
          hm.num_int, hvalue]
        push_cast
        rw [add_sub_cancel_right]
        rfl
  · exact absurd rfl hsolved.here

theorem value_call_eq_fn {f : Signature} {name : String} (hname : f.name = name) (u : Expr) :
    (call f [u] [] []).value m = m.fn name (u.value m) := by
  rw [value_call, List.map_singleton, List.map_nil]
  exact hm.call_of_name _ _ _ hname

/-- The chain rule, read backwards: the derivative of a linear argument is divided out. -/
theorem derivation_scaled {a b : R} {k : ℤ} (hk : (k : R) ≠ 0) (h : D a = b * k) :
    D (a * m.pow k (-1)) = b := by
  rw [D.leibniz, derivation_inverse hm, hm.pow_neg_one, h, smul_zero, zero_add, smul_eq_mul,
    mul_comm, mul_inv_cancel_right₀ hk]

/-- Integration of a function of an argument whose derivative is a number. -/
theorem derivation_outerIntegral [CharZero R] {f : Signature} {u result : Expr} {k : Int64}
    (hk : k ≠ 0) (hu : u.Everywhere Integrable) (hdu : D (u.value m) = k.toInt)
    (h : outerIntegral? x f.name u (buildPow (.num (.int k)) minusOne) = some result) :
    D (result.value m) = (call f [u] [] []).value m := by
  have hn := hm.normalizes
  have hvalue := denotes_value (m := m) (unrounded_of_integrable hu)
  have hminus := denotes_minusOne hm.toDerives
  have hinverse : Denotes m (buildPow (.num (.int k)) minusOne) (m.pow (k.toInt : R) (-1)) :=
    denotes_buildPow hn (denotes_int (hm.num_int k)) hminus
  have hne : (k.toInt : R) ≠ 0 := Int.cast_ne_zero.2 fun hzero => hk (Int64.toInt_inj.1 hzero)
  unfold outerIntegral? at h
  split at h
  case h_1 hname =>
    cases h
    have hcos : D (-m.fn "cos" (u.value m)) = m.fn "sin" (u.value m) * k.toInt := by
      rw [map_neg, Meaning.fn, hm.cos _ _ rfl, hdu, neg_mul, neg_neg]
    have hrule := denotes_buildProd hn (.cons hminus (.cons (denotes_call1 "cos" hvalue)
      (.cons hinverse .nil)))
    rw [hrule.value, value_call_eq_fn hm hname, List.prod_cons, List.prod_cons, List.prod_singleton,
      ← mul_assoc, neg_one_mul]
    exact derivation_scaled hm hne hcos
  case h_2 hname =>
    cases h
    have hsin : D (m.fn "sin" (u.value m)) = m.fn "cos" (u.value m) * k.toInt := by
      rw [Meaning.fn, hm.sin _ _ rfl, hdu]
    have hrule := denotes_buildProd hn (.cons (denotes_call1 "sin" hvalue) (.cons hinverse .nil))
    rw [hrule.value, value_call_eq_fn hm hname, List.prod_cons, List.prod_singleton]
    exact derivation_scaled hm hne hsin
  case h_3 hname =>
    cases h
    have hexp : D (m.fn "exp" (u.value m)) = m.fn "exp" (u.value m) * k.toInt := by
      rw [Meaning.fn, hm.exp _ _ rfl, hdu, Meaning.fn]
    have hrule := denotes_buildProd hn (.cons (denotes_call1 "exp" hvalue) (.cons hinverse .nil))
    rw [hrule.value, value_call_eq_fn hm hname, List.prod_cons, List.prod_singleton]
    exact derivation_scaled hm hne hexp
  case h_4 hname =>
    split at h
    · rename_i name
      split at h
      · rename_i hself
        cases h
        obtain rfl := beq_iff_eq.1 hself
        have hln : D (m.fn "ln" (m.sym name)) = (m.sym name)⁻¹ := by
          rw [Meaning.fn, hm.ln _ _ rfl, hm.sym_self, mul_one, hm.pow_neg_one]
        have hx := denotes_sym (m := m) name
        have hfirst := denotes_buildProd hn (.cons hx (.cons (denotes_call1 "ln" hx) .nil))
        have hsecond := denotes_buildProd hn (.cons hminus (.cons hx .nil))
        have hrule := denotes_buildSum hn (.cons hfirst (.cons hsecond .nil))
        rw [hrule.value, value_call_eq_fn hm hname]
        simp [D.leibniz, hln, hm.sym_self, hm.sym_ne_zero, value]
      · cases h
    · cases h
  case h_5 => cases h

theorem derivation_linearArgumentRule [CharZero R] {f : Signature}
    {functional subscript superscript : List Expr}
    (he : (call f functional subscript superscript).Everywhere Integrable)
    (hsolved : (linearArgumentRule x f functional subscript superscript).Everywhere Solved) :
    D ((linearArgumentRule x f functional subscript superscript).value m) =
      (call f functional subscript superscript).value m := by
  unfold linearArgumentRule at hsolved ⊢
  obtain ⟨-, rfl, rfl⟩ := he.here
  dsimp only at hsolved ⊢
  split at hsolved
  · rename_i u
    have hu := he.parts u (by simp [children])
    split at hsolved
    · exact absurd rfl hsolved.here
    · rename_i hlinear
      rw [if_neg hlinear]
      obtain ⟨k, hk, hdu⟩ := exists_int_of_linear hu hlinear
      have hderivative := value_differentiate hm.toDerives (elementary_of_integrable (x := x) hu)
      rw [hdu, value_num, hm.num_int] at hderivative
      rw [hdu] at hsolved ⊢
      cases hrule : outerIntegral? x f.name u (buildPow (.num (.int k)) minusOne) with
      | none =>
        rw [hrule] at hsolved
        exact absurd rfl hsolved.here
      | some result => exact derivation_outerIntegral hm hk hu hderivative.symm hrule
  · exact absurd rfl hsolved.here

/-- Integration of a product in which one factor mentions the variable. -/
theorem derivation_constantFactor {factors : List Expr} {f : Expr}
    (he : (Expr.prod factors).Everywhere Integrable) (hf : factors.filter (·.mentions x) = [f])
    (ih : (f.integrate x).Everywhere Solved → D ((f.integrate x).value m) = f.value m)
    (hsolved : (buildProd (factors.filter (!·.mentions x) ++ [f.integrate x])).Everywhere Solved) :
    D ((buildProd (factors.filter (!·.mentions x) ++ [f.integrate x])).value m) =
      (Expr.prod factors).value m := by
  have hmem : f ∈ factors := List.mem_of_mem_filter (hf ▸ List.mem_singleton_self f)
  have hanswer := answer_integrate (x := x) (he.factors f hmem)
  generalize hconsts : factors.filter (!·.mentions x) = consts at hsolved ⊢
  have hin : ∀ c ∈ consts, c.Everywhere Integrable ∧ c.mentions x = false := by
    intro c hc
    obtain ⟨hc, hx⟩ := List.mem_filter.1 (hconsts ▸ hc)
    exact ⟨he.factors c hc, by simpa using hx⟩
  have hunrounded : ∀ c ∈ consts, c.Everywhere Unrounded := fun c hc =>
    unrounded_of_integrable (hin c hc).1
  have hvalue : (Expr.prod factors).value m = (consts.map (value m)).prod * f.value m := by
    have hperm := (List.filter_append_perm (·.mentions x) factors).map (value m)
    rw [hf, hconsts] at hperm
    rw [value_prod, ← hperm.prod_eq, List.map_append, List.prod_append, List.map_singleton,
      List.prod_singleton, mul_comm]
  have hrule := denotes_buildProd hm.normalizes (List.rel_append (denoteAll_iff.2 ⟨hunrounded, rfl⟩)
    (.cons (denotes_value (hanswer.mono fun _ h => h.unrounded)) .nil))
  rw [hrule.value, List.prod_append, List.prod_singleton, hvalue]
  cases hzero : (flatFactors consts).any (·.isValue 0) with
  | true =>
    -- An integral that is left may be gone, but so is everything else.
    have hprod : buildProd consts = 0 := by rw [buildProd, if_pos hzero]
    have hconst := (denotes_buildProd hm.normalizes (denoteAll_iff.2 ⟨hunrounded, rfl⟩)).value
    rw [hprod, (denotes_zero hm.toDerives).value] at hconst
    rw [← hconst, zero_mul, zero_mul, map_zero]
  | false =>
    have hconst : D (Expr.value m (.prod consts)) = 0 := by
      refine derivation_value_eq_zero hm.toDerives
        (.prod trivial fun c hc => elementary_of_integrable (hin c hc).1) ?_
      exact anyMentions_eq_false_iff.2 fun c hc => (hin c hc).2
    rw [value_prod] at hconst
    rw [D.leibniz, hconst, ih (solved_of_buildProd hanswer hzero hsolved), smul_zero, add_zero,
      smul_eq_mul]

/-- The derivative of an antiderivative in which no integral is left. -/
theorem derivation_integrate [CharZero R] {e : Expr} (he : e.Everywhere Integrable)
    (hsolved : (e.integrate x).Everywhere Solved) : D ((e.integrate x).value m) = e.value m := by
  induction he with
  | @intro e here parts ih =>
    have he : e.Everywhere Integrable := .intro here parts
    cases e with
    | num n => exact derivation_constantRule hm he rfl
    | sym name => exact derivation_symbolRule hm name
    | sum terms =>
      rw [integrate, stepIntegral, integrateAll_eq_map] at hsolved ⊢
      have hterms := List.forall_mem_map.1 (solved_of_buildSum hsolved)
      have hunrounded : ∀ t ∈ terms.map (integrate x), t.Everywhere Unrounded :=
        List.forall_mem_map.2 fun t ht =>
          (answer_integrate (parts t ht)).mono fun _ h => h.unrounded
      rw [value_buildSum hm.normalizes.zero hunrounded, map_list_sum, List.map_map, List.map_map,
        value_sum]
      exact congrArg List.sum (List.map_congr_left fun t ht => ih t ht (hterms t ht))
    | prod factors =>
      obtain ⟨hnone, hrule⟩ | ⟨f, hf, hrule⟩ | hrule := integrate_prod_cases x factors
      · rw [hrule]
        refine derivation_constantRule hm he (anyMentions_eq_false_iff.2 fun f hf => ?_)
        exact Bool.eq_false_iff.2 (List.filter_eq_nil_iff.1 hnone f hf)
      · rw [hrule] at hsolved ⊢
        have hmem : f ∈ factors := List.mem_of_mem_filter (hf ▸ List.mem_singleton_self f)
        exact derivation_constantFactor hm he hf (ih f hmem) hsolved
      · rw [hrule] at hsolved
        exact absurd rfl hsolved.here
    | pow base exponent => exact derivation_powerIntegral hm he hsolved
    | call f functional subscript superscript => exact derivation_linearArgumentRule hm he hsolved
    | deriv _ _ | integral _ _ _ _ => exact here.elim

/-- Differentiation takes integration back: the derivative of an antiderivative in which no integral is
left has the value of the integrand. -/
theorem value_differentiate_integrate [CharZero R] {e : Expr} (he : e.Everywhere Integrable)
    (hsolved : (e.integrate x).Everywhere Solved) :
    ((e.integrate x).differentiate x).value m = e.value m := by
  have helementary : (e.integrate x).Everywhere (Elementary x) :=
    ((answer_integrate he).and hsolved).mono fun _ h => h.1.node.resolve_right h.2
  rw [value_differentiate hm.toDerives helementary, derivation_integrate hm he hsolved]

end

theorem solved_of_hasCalculus {e : Expr} (h : e.hasCalculus = false) : e.Everywhere Solved := by
  induction e using induction_on_parts with
  | h e ih =>
    refine .intro (fun heq => ?_) fun part hpart => ih part hpart (hasCalculus_of_mem_children h hpart)
    cases e with
    | integral _ _ _ _ => cases h
    | _ => cases heq

/-- `3 * x ^ 2 + sin (2 * x + 1) + ln x`, with functions near a generic point of the real line as
values. -/
theorem value_differentiate_integrate_germ :
    (((Expr.sum [.prod [3, .pow (.sym "x") 2], call1 "sin" (.sum [.prod [2, .sym "x"], 1]),
        call1 "ln" (.sym "x")]).integrate "x").differentiate "x").value (Germ.meaning "x") =
      (Expr.sum [.prod [3, .pow (.sym "x") 2], call1 "sin" (.sum [.prod [2, .sym "x"], 1]),
        call1 "ln" (.sym "x")]).value (Germ.meaning "x") := by
  have hx : (Expr.sym "x").Everywhere Integrable := .intro trivial nofun
  have hnum (k : Int64) (hmin : k ≠ Int64.minValue) (hmax : k ≠ Int64.maxValue) :
      (Expr.num (.int k)).Everywhere Integrable := .num ⟨k, rfl, hmin, hmax⟩
  have hcall (name : String) {u : Expr} (hu : u.Everywhere Integrable) :
      (call1 name u).Everywhere Integrable :=
    .intro ⟨rfl, rfl, rfl⟩ (List.forall_mem_singleton.2 hu)
  have hscaled (k : Int64) (hmin : k ≠ Int64.minValue) (hmax : k ≠ Int64.maxValue) {u : Expr}
      (hu : u.Everywhere Integrable) : (Expr.prod [.num (.int k), u]).Everywhere Integrable :=
    .prod trivial (List.forall_mem_cons.2 ⟨hnum k hmin hmax, List.forall_mem_singleton.2 hu⟩)
  have hsquare : (Expr.pow (.sym "x") 2).Everywhere Integrable :=
    .intro trivial (List.forall_mem_cons.2
      ⟨hx, List.forall_mem_singleton.2 (hnum 2 (by decide) (by decide))⟩)
  have hlinear : (Expr.sum [.prod [2, .sym "x"], 1]).Everywhere Integrable :=
    .sum trivial (List.forall_mem_cons.2 ⟨hscaled 2 (by decide) (by decide) hx,
      List.forall_mem_singleton.2 (hnum 1 (by decide) (by decide))⟩)
  refine value_differentiate_integrate (Germ.calculus "x") (.sum trivial ?_)
    (solved_of_hasCalculus (by decide +kernel))
  exact List.forall_mem_cons.2 ⟨hscaled 3 (by decide) (by decide) hsquare, List.forall_mem_cons.2
    ⟨hcall "sin" hlinear, List.forall_mem_singleton.2 (hcall "ln" hx)⟩⟩

end Expr

end Workings

import Workings.Calculus.Derivative
import Workings.Proofs.Germs
import Workings.Proofs.Symbols

/-!
# Differentiation is sound

Under the laws of differentiation (`Meaning.Derives m D x`), the value of `e.differentiate x` is `D` of the
value of `e` (`Expr.value_differentiate`). The expressions are `Expr.Elementary` at every node. A derivative
that the table of rules does not take stands for `D` of its body.
-/

namespace Workings

variable {R : Type*} [CommRing R]

/-- A node of an expression that can be differentiated by `x`: its number is an integer, and not the least
one if it is an exponent, its function has one argument, and only a logarithm has a base besides, which
does not mention `x`. -/
def Expr.Elementary (x : String) : Expr → Prop
  | .num n => Expr.Unrounded (.num n)
  | .pow _ (.num n) => n.Whole
  | .call f functional subscript superscript =>
    functional.length = 1 ∧ superscript = [] ∧
      (subscript = [] ∨ f.name = "log" ∧ ∃ base, subscript = [base] ∧ base.mentions x = false)
  | .deriv _ _ | .integral _ _ _ _ => False
  | _ => True

/-- One less than an integer with an opposite. -/
theorem Number.Whole.sub_one {n : Number} (h : n.Whole) :
    ∃ k : Int64, n - 1 = .int k ∧ k.toInt = n.toInt - 1 := by
  cases n with
  | float x => exact h.elim
  | int k =>
    have hrange : InRange (k.toInt - 1) := by
      obtain ⟨hlow, hhigh⟩ := inRange_toInt k
      obtain ⟨hlow', hhigh'⟩ := inRange_neg h
      constructor <;> omega
    exact ⟨Int64.ofInt (k.toInt - 1), exactOr_eq hrange _, toInt_ofInt hrange⟩

namespace Expr

variable {x : String} {e : Expr}

/-! ### Elementary expressions -/

theorem Elementary.unrounded (h : Elementary x e) : Unrounded e := by
  cases e with
  | num _ => exact h
  | sym _ | sum _ | prod _ | pow _ _ | call _ _ _ _ | deriv _ _ | integral _ _ _ _ => trivial

theorem unrounded_of_elementary (h : e.Everywhere (Elementary x)) : e.Everywhere Unrounded :=
  h.mono fun _ => Elementary.unrounded

theorem hasCalculus_of_elementary (h : e.Everywhere (Elementary x)) : e.hasCalculus = false := by
  refine hasCalculus_of_everywhere (fun e he => ?_) h
  cases e with
  | deriv _ _ | integral _ _ _ _ => exact he.elim
  | num _ | sym _ | sum _ | prod _ | pow _ _ | call _ _ _ _ => rfl

/-- The one argument of a call, and the base of a logarithm if it has one. -/
theorem Elementary.call_cases {f : Signature} {functional subscript superscript : List Expr}
    (h : Elementary x (.call f functional subscript superscript)) :
    (∃ u, functional = [u] ∧ subscript = [] ∧ superscript = []) ∨
      ∃ u base, functional = [u] ∧ subscript = [base] ∧ superscript = [] ∧ f.name = "log" ∧
        base.mentions x = false := by
  obtain ⟨hlength, hsuper, hsub⟩ := h
  obtain ⟨u, hu⟩ := List.length_eq_one_iff.1 hlength
  rcases hsub with hsub | ⟨hname, base, hsub, hbase⟩
  · exact .inl ⟨u, hu, hsub, hsuper⟩
  · exact .inr ⟨u, base, hu, hsub, hsuper, hname, hbase⟩

/-- Only an integral varies with a variable that it does not mention. -/
theorem varies_eq_mentions (h : Elementary x e) : e.varies x = e.mentions x := by
  cases e with
  | integral _ _ _ _ => exact h.elim
  | num _ | sym _ | sum _ | prod _ | pow _ _ | call _ _ _ _ | deriv _ _ => rfl

/-! ### The product rule -/

section

variable {m : Meaning R} {D : Derivation ℤ R R} {q : Expr → Prop} {before factors : List Expr}

/-- A property that products have if their factors have it is one of the terms of the product rule. -/
theorem forall_productTerms (hbuild : ∀ {fs : List Expr}, (∀ f ∈ fs, q f) → q (buildProd fs))
    (hbefore : ∀ f ∈ before, q f) (hf : ∀ f ∈ factors, q f ∧ q (f.differentiate x)) :
    ∀ t ∈ productTerms before factors (factors.map (differentiate x)), q t := by
  induction factors generalizing before with
  | nil => exact fun _ ht => nomatch ht
  | cons factor factors ih =>
    obtain ⟨⟨hfactor, hderivative⟩, hfactors⟩ := List.forall_mem_cons.1 hf
    have hrest := ih (List.forall_mem_append.2 ⟨hbefore, List.forall_mem_singleton.2 hfactor⟩) hfactors
    rw [List.map_cons, productTerms]
    split
    · exact hrest
    · refine List.forall_mem_cons.2 ⟨hbuild (List.forall_mem_append.2 ⟨hbefore, ?_⟩), hrest⟩
      exact List.forall_mem_cons.2 ⟨hderivative, fun f hmem => (hfactors f hmem).1⟩

/-- The terms of the product rule add up to the derivative of the product, if numbers among the factors and
their derivatives have the values of these numbers. -/
theorem sum_productTerms (hzero : m.num 0 = 0) (hone : m.num 1 = 1) (hfaithful : ∀ e, q e → e.Faithful m)
    (hparts : ∀ inner, q (.prod inner) → ∀ f ∈ inner, q f) (hbefore : ∀ f ∈ before, q f)
    (hf : ∀ f ∈ factors, q f ∧ q (f.differentiate x) ∧ (f.differentiate x).value m = D (f.value m)) :
    ((productTerms before factors (factors.map (differentiate x))).map (value m)).sum =
      (before.map (value m)).prod * D (factors.map (value m)).prod := by
  induction factors generalizing before with
  | nil => simp [productTerms]
  | cons factor factors ih =>
    obtain ⟨⟨hfactor, hderivative, hvalue⟩, hfactors⟩ := List.forall_mem_cons.1 hf
    have hrest := ih (List.forall_mem_append.2 ⟨hbefore, List.forall_mem_singleton.2 hfactor⟩) hfactors
    rw [List.map_append, List.prod_append, List.map_singleton, List.prod_singleton] at hrest
    rw [List.map_cons, productTerms, List.map_cons, List.prod_cons, D.leibniz, smul_eq_mul, smul_eq_mul,
      ← hvalue]
    split
    · rename_i hisZero
      have hconst : (factor.differentiate x).value m = 0 := (hfaithful _ hderivative 0 hisZero).trans hzero
      rw [hrest, hconst]
      ring
    · have hterm : ∀ f ∈ before ++ factor.differentiate x :: factors, q f :=
        List.forall_mem_append.2 ⟨hbefore, List.forall_mem_cons.2 ⟨hderivative, fun f h => (hfactors f h).1⟩⟩
      have hproduct := value_buildProd_of_faithful hone (fun a => by rw [hzero, zero_mul])
        (fun f h => hfaithful f (hterm f h)) fun f h => hfaithful f (forall_flatFactors hparts hterm f h)
      rw [List.map_cons, List.sum_cons, hrest, hproduct, List.map_append, List.prod_append, List.map_cons,
        List.prod_cons]
      ring

/-- A product of constants is a constant. -/
theorem derivation_prod_eq_zero {as : List R} (h : ∀ a ∈ as, D a = 0) : D as.prod = 0 := by
  induction as with
  | nil => exact D.map_one_eq_zero
  | cons a as ih =>
    obtain ⟨ha, has⟩ := List.forall_mem_cons.1 h
    rw [List.prod_cons, D.leibniz, ha, ih has, smul_zero, smul_zero, add_zero]

/-- A sum of constants is a constant. -/
theorem derivation_sum_eq_zero {as : List R} (h : ∀ a ∈ as, D a = 0) : D as.sum = 0 := by
  rw [map_list_sum]
  exact List.sum_eq_zero (List.forall_mem_map.2 h)

end

/-! ### The rules of the table -/

section

variable {m : Meaning R} {D : Derivation ℤ R R} (hm : m.Derives D x)

include hm

theorem denotes_zero : Denotes m 0 0 :=
  denotes_int hm.normalizes.zero

theorem denotes_one : Denotes m 1 1 :=
  denotes_int hm.normalizes.one

theorem denotes_two : Denotes m 2 2 :=
  denotes_int ((hm.num_eq (by decide)).trans (Int.cast_ofNat 2))

theorem denotes_minusOne : Denotes m minusOne (-1) :=
  denotes_int ((hm.num_eq (n := -1) (by decide)).trans (by simp))

omit hm in
theorem denotes_call1 (name : String) {u : Expr} {a : R} (hu : Denotes m u a) :
    Denotes m (call1 name u) (m.fn name a) := by
  refine ⟨.intro trivial (List.forall_mem_singleton.2 hu.unrounded), ?_⟩
  rw [call1, value_call, List.map_singleton, hu.value]
  rfl

theorem eq_zero_of_isValue {e : Expr} {a : R} (he : Denotes m e a) (h : e.isValue 0 = true) :
    a = 0 := by
  rw [← he.value, eq_int_of_isValue he.unrounded h]
  exact hm.normalizes.zero

/-- The product rule, term by term without floats. -/
theorem denoteAll_productTerms {before factors : List Expr} {as : List R}
    (hbefore : DenoteAll m before as)
    (hf : ∀ f ∈ factors, f.Everywhere Unrounded ∧ Denotes m (f.differentiate x) (D (f.value m))) :
    ∃ bs, DenoteAll m (productTerms before factors (factors.map (differentiate x))) bs ∧
      bs.sum = as.prod * D (factors.map (value m)).prod := by
  obtain ⟨hunrounded, rfl⟩ := denoteAll_iff.1 hbefore
  have hterms := forall_productTerms (everywhere_buildProd trivial trivial fun _ _ => trivial)
    hunrounded fun f hmem => ⟨(hf f hmem).1, (hf f hmem).2.unrounded⟩
  have hsum := sum_productTerms hm.normalizes.zero hm.normalizes.one (fun _ => faithful_of_unrounded)
    (fun _ h => h.factors) hunrounded fun f hmem =>
      ⟨(hf f hmem).1, (hf f hmem).2.unrounded, (hf f hmem).2.value⟩
  exact ⟨_, denoteAll_iff.2 ⟨hterms, rfl⟩, hsum⟩

/-- The rule for powers with a constant exponent. -/
theorem denotes_constantPower {base exponent lower dBase : Expr} (hb : base.Everywhere Unrounded)
    (he : exponent.Everywhere Unrounded) (hconst : D (exponent.value m) = 0)
    (hlower : Denotes m lower (exponent.value m - 1)) (hdb : Denotes m dBase (D (base.value m))) :
    Denotes m (buildProd [exponent, buildPow base lower, dBase])
      (D (m.pow (base.value m) (exponent.value m))) := by
  have hn := hm.normalizes
  have hpower := denotes_buildPow hn (denotes_value hb) hlower
  have hrule := denotes_buildProd hn (.cons (denotes_value he) (.cons hpower (.cons hdb .nil)))
  convert hrule using 1
  rw [hm.pow_const _ _ hconst]
  simp [mul_assoc]

/-- The rule for powers. -/
theorem denotes_powerRule {base exponent dBase dExponent : Expr}
    (hpow : Elementary x (.pow base exponent)) (hb : base.Everywhere Unrounded)
    (he : exponent.Everywhere Unrounded) (hdb : Denotes m dBase (D (base.value m)))
    (hde : Denotes m dExponent (D (exponent.value m))) :
    Denotes m (powerRule base exponent dBase dExponent)
      (D (m.pow (base.value m) (exponent.value m))) := by
  have hbase := denotes_value (m := m) hb
  have hexponent := denotes_value (m := m) he
  have hn := hm.normalizes
  unfold powerRule
  split
  · rename_i n
    obtain ⟨k, hk, hvalue⟩ := Number.Whole.sub_one hpow
    obtain ⟨j, rfl⟩ := Number.Whole.exists_int hpow
    rw [hk]
    have hconst : D (value m (.num (.int j))) = 0 := by
      rw [value_num, hm.num_int, D.map_intCast]
    have hlower : Denotes m (.num (.int k)) (value m (.num (.int j)) - 1) := by
      refine denotes_int ?_
      rw [hm.num_int, hvalue, value_num, hm.num_int]
      push_cast
      rfl
    exact denotes_constantPower hm hb he hconst hlower hdb
  · split
    · rename_i hzero
      have hconst : D (exponent.value m) = 0 := eq_zero_of_isValue hm hde hzero
      have hlower : Denotes m (buildSum [exponent, minusOne]) (exponent.value m - 1) := by
        have hsum := denotes_buildSum hn (.cons hexponent (.cons (denotes_minusOne hm) .nil))
        convert hsum using 1
        simp [sub_eq_add_neg]
      exact denotes_constantPower hm hb he hconst hlower hdb
    · have hinverse := denotes_buildPow hn hbase (denotes_minusOne hm)
      have hfirst := denotes_buildProd hn (.cons hde (.cons (denotes_call1 "ln" hbase) .nil))
      have hsecond := denotes_buildProd hn (.cons hexponent (.cons hdb (.cons hinverse .nil)))
      have hsum := denotes_buildSum hn (.cons hfirst (.cons hsecond .nil))
      have hrule := denotes_buildProd hn
        (.cons (denotes_buildPow hn hbase hexponent) (.cons hsum .nil))
      convert hrule using 1
      rw [hm.pow]
      simp [mul_assoc]

theorem denotes_derivOnce {e : Expr} (he : e.Everywhere Unrounded) :
    Denotes m (derivOnce e x) (D (e.value m)) := by
  refine ⟨.intro trivial (List.forall_mem_singleton.2 he), ?_⟩
  rw [derivOnce, value, hm.deriv]

omit hm in
theorem logDerivative?_nil (name : String) (u du : Expr) : logDerivative? x name [] u du = none := by
  unfold logDerivative?
  split
  · rename_i hsubscript
    cases hsubscript
  · rfl

/-- The chain rules for functions of one argument. -/
theorem denotes_outerDerivative {f : Signature} {u du result : Expr} {a : R}
    (hu : Denotes m u a) (hdu : Denotes m du (D a))
    (h : outerDerivative? f.name u du = some result) :
    Denotes m result (D (m.call f [a] [] [])) := by
  have hn := hm.normalizes
  have hinverse {e : Expr} {b : R} (he : Denotes m e b) :
      Denotes m (buildPow e minusOne) (m.pow b (-1)) :=
    denotes_buildPow hn he (denotes_minusOne hm)
  unfold outerDerivative? at h
  split at h
  case h_1 hname =>
    cases h
    convert denotes_buildProd hn (.cons (denotes_call1 "cos" hu) (.cons hdu .nil)) using 1
    simp [hm.sin f a hname]
  case h_2 hname =>
    cases h
    convert denotes_buildProd hn
      (.cons (denotes_minusOne hm) (.cons (denotes_call1 "sin" hu) (.cons hdu .nil))) using 1
    simp [hm.cos f a hname]
  case h_3 hname =>
    cases h
    have hsquare := denotes_buildPow hn (denotes_call1 "sec" hu) (denotes_two hm)
    convert denotes_buildProd hn (.cons hsquare (.cons hdu .nil)) using 1
    simp [hm.tan f a hname]
  case h_4 hname =>
    cases h
    convert denotes_buildProd hn (.cons (denotes_call1 "exp" hu) (.cons hdu .nil)) using 1
    simp [hm.exp f a hname]
  case h_5 hname =>
    cases h
    convert denotes_buildProd hn (.cons hdu (.cons (hinverse hu) .nil)) using 1
    simp [hm.ln f a hname, mul_comm]
  case h_6 hname =>
    cases h
    convert denotes_buildProd hn (.cons hdu (.cons (hinverse (denotes_two hm))
      (.cons (hinverse (denotes_call1 "sqrt" hu)) .nil))) using 1
    simp [hm.sqrt f a hname, mul_comm]
  case h_7 => cases h

/-- An expression that does not mention the variable is a constant. -/
theorem derivation_value_eq_zero {e : Expr} (he : e.Everywhere (Elementary x))
    (hx : e.mentions x = false) : D (e.value m) = 0 := by
  have hcalculus := hasCalculus_of_elementary he
  induction he with
  | @intro e here parts ih =>
    have hparts : ∀ part ∈ e.children, D (part.value m) = 0 := fun part hpart =>
      ih part hpart (mentions_of_mem_children hcalculus hx hpart)
        (hasCalculus_of_mem_children hcalculus hpart)
    cases e with
    | num n =>
      obtain ⟨k, rfl⟩ := Unrounded.exists_int here
      rw [value_num, hm.num_int, D.map_intCast]
    | sym y => exact hm.sym_other y (beq_eq_false_iff_ne.1 hx)
    | sum terms =>
      rw [value_sum]
      exact derivation_sum_eq_zero (List.forall_mem_map.2 hparts)
    | prod factors =>
      rw [value_prod]
      exact derivation_prod_eq_zero (List.forall_mem_map.2 hparts)
    | pow base exponent =>
      rw [value_pow, hm.pow_const _ _ (hparts exponent (by simp [children])),
        hparts base (by simp [children]), mul_zero]
    | call f functional subscript superscript =>
      obtain ⟨u, rfl, rfl, rfl⟩ | ⟨u, base, rfl, rfl, rfl, hname, -⟩ := here.call_cases
      · obtain ⟨outer, houter⟩ := hm.chain f (u.value m)
        rw [value_call, List.map_singleton, List.map_nil, houter, hparts u (by simp [children]),
          mul_zero]
      · rw [value_call, List.map_singleton, List.map_singleton, List.map_nil,
          hm.log f _ _ hname (hparts base (by simp [children])), hparts u (by simp [children]),
          mul_zero]
    | deriv _ _ | integral _ _ _ _ => exact here.elim

/-- The chain rule for a call. -/
theorem denotes_chainRule {f : Signature} {functional subscript superscript : List Expr}
    (he : (call f functional subscript superscript).Everywhere (Elementary x))
    (hf : ∀ u ∈ functional, Denotes m (u.differentiate x) (D (u.value m))) :
    Denotes m (chainRule x f functional subscript superscript (functional.map (differentiate x)))
      (D ((call f functional subscript superscript).value m)) := by
  have hunevaluated := denotes_derivOnce hm (unrounded_of_elementary he)
  obtain ⟨u, rfl, rfl, rfl⟩ | ⟨u, base, rfl, rfl, rfl, hname, hbase⟩ := he.here.call_cases
  · have hu := denotes_value (m := m) (unrounded_of_elementary (he.parts u (by simp [children])))
    have hdu := hf u (by simp)
    rw [value_call, List.map_singleton, List.map_nil] at hunevaluated ⊢
    rw [List.map_singleton, chainRule]
    split
    · rename_i hzero
      obtain ⟨outer, houter⟩ := hm.chain f (u.value m)
      rw [houter, eq_zero_of_isValue hm hdu hzero, mul_zero]
      exact denotes_zero hm
    · rw [logDerivative?_nil, Option.or_none]
      cases hrule : outerDerivative? f.name u (u.differentiate x) with
      | none => exact hunevaluated
      | some result => exact denotes_outerDerivative hm hu hdu hrule
  · have hu := denotes_value (m := m) (unrounded_of_elementary (he.parts u (by simp [children])))
    have hb := he.parts base (by simp [children])
    have hdu := hf u (by simp)
    have hrule := hm.log f (u.value m) (base.value m) hname (derivation_value_eq_zero hm hb hbase)
    rw [value_call]
    simp only [List.map_singleton, List.map_nil]
    rw [hrule, chainRule]
    split
    · rename_i hzero
      rw [eq_zero_of_isValue hm hdu hzero, mul_zero]
      exact denotes_zero hm
    · have htable : (outerDerivative? f.name u (u.differentiate x)).or
          (logDerivative? x f.name [base] u (u.differentiate x)) =
          some (buildProd [u.differentiate x, buildPow u minusOne,
            buildPow (call1 "ln" base) minusOne]) := by
        rw [hname, logDerivative?, hbase]
        rfl
      rw [htable, Option.getD_some]
      have hn := hm.normalizes
      have hln := denotes_call1 "ln" (denotes_value (m := m) (unrounded_of_elementary hb))
      convert denotes_buildProd hn (.cons hdu (.cons (denotes_buildPow hn hu (denotes_minusOne hm))
        (.cons (denotes_buildPow hn hln (denotes_minusOne hm)) .nil))) using 1
      simp [mul_comm]

/-- The derivative of an elementary expression stands for the derivative of its value. -/
theorem denotes_differentiate {e : Expr} (he : e.Everywhere (Elementary x)) :
    Denotes m (e.differentiate x) (D (e.value m)) := by
  induction he with
  | @intro e here parts ih =>
    have he : e.Everywhere (Elementary x) := .intro here parts
    rw [differentiate_eq, varies_eq_mentions here]
    split
    · rename_i hx
      rw [applyDerivativeRule, differentiateAll_eq_map]
      cases e with
      | num n => cases hx
      | sym y =>
        have hvalue : D ((sym y).value m) = 1 := by
          rw [beq_iff_eq.1 hx]
          exact hm.sym_self
        have hself : (y == x) = true := hx
        rw [hvalue, stepDerivative, if_pos hself]
        exact denotes_one hm
      | sum terms =>
        have hterms : DenoteAll m (terms.map (differentiate x)) (terms.map fun t => D (t.value m)) :=
          List.forall₂_map_left_iff.2 (List.forall₂_map_right_iff.2 (List.forall₂_same.2 ih))
        rw [value_sum, map_list_sum, List.map_map]
        exact denotes_buildSum hm.normalizes hterms
      | prod factors =>
        have hfactors : ∀ f ∈ factors,
            f.Everywhere Unrounded ∧ Denotes m (f.differentiate x) (D (f.value m)) :=
          fun f hf => ⟨unrounded_of_elementary (parts f hf), ih f hf⟩
        obtain ⟨bs, hbs, hsum⟩ := denoteAll_productTerms hm .nil hfactors
        rw [List.prod_nil, one_mul] at hsum
        rw [value_prod, ← hsum]
        exact denotes_buildSum hm.normalizes hbs
      | pow base exponent =>
        rw [value_pow]
        exact denotes_powerRule hm here
          (unrounded_of_elementary (parts base (by simp [children])))
          (unrounded_of_elementary (parts exponent (by simp [children])))
          (ih base (by simp [children])) (ih exponent (by simp [children]))
      | call f functional subscript superscript =>
        exact denotes_chainRule hm he fun u hu => ih u (by simp [children, hu])
      | deriv _ _ | integral _ _ _ _ => exact here.elim
    · rename_i hx
      rw [derivation_value_eq_zero hm he (Bool.eq_false_iff.2 hx)]
      exact denotes_zero hm

/-- Differentiation is sound: under the laws of differentiation, the value of the derivative is the
derivative of the value. -/
theorem value_differentiate {e : Expr} (he : e.Everywhere (Elementary x)) :
    (e.differentiate x).value m = D (e.value m) :=
  (denotes_differentiate hm he).value

end

/-- `x ^ 3 * sin x + log_2 x + x ^ x`, with functions near a generic point of the real line as values. -/
theorem value_differentiate_germ :
    ((Expr.sum [.prod [.pow (.sym "x") 3, call1 "sin" (.sym "x")],
        .call ⟨"log", .exactly 1, .exactly 1, .none⟩ [.sym "x"] [2] [],
        .pow (.sym "x") (.sym "x")]).differentiate "x").value (Germ.meaning "x") =
      Germ.derivation ((Expr.sum [.prod [.pow (.sym "x") 3, call1 "sin" (.sym "x")],
        .call ⟨"log", .exactly 1, .exactly 1, .none⟩ [.sym "x"] [2] [],
        .pow (.sym "x") (.sym "x")]).value (Germ.meaning "x")) := by
  have hx : (Expr.sym "x").Everywhere (Elementary "x") := .intro trivial nofun
  have hnum (k : Int64) : (Expr.num (.int k)).Everywhere (Elementary "x") := .num trivial
  have hcube : (Expr.pow (.sym "x") 3).Everywhere (Elementary "x") :=
    .intro (show Number.Whole 3 by decide)
      (List.forall_mem_cons.2 ⟨hx, List.forall_mem_singleton.2 (hnum 3)⟩)
  have hpower : (Expr.pow (.sym "x") (.sym "x")).Everywhere (Elementary "x") :=
    .intro trivial (List.forall_mem_cons.2 ⟨hx, List.forall_mem_singleton.2 hx⟩)
  have hsin : (call1 "sin" (.sym "x")).Everywhere (Elementary "x") :=
    .intro ⟨rfl, rfl, .inl rfl⟩ (List.forall_mem_singleton.2 hx)
  have hlog : (Expr.call ⟨"log", .exactly 1, .exactly 1, .none⟩ [.sym "x"] [2] []).Everywhere
      (Elementary "x") :=
    .intro ⟨rfl, rfl, .inr ⟨rfl, 2, rfl, rfl⟩⟩
      (List.forall_mem_cons.2 ⟨hx, List.forall_mem_singleton.2 (hnum 2)⟩)
  refine value_differentiate (Germ.derives "x") (.sum trivial ?_)
  refine List.forall_mem_cons.2 ⟨.prod trivial ?_, List.forall_mem_cons.2 ⟨hlog, ?_⟩⟩
  · exact List.forall_mem_cons.2 ⟨hcube, List.forall_mem_singleton.2 hsin⟩
  · exact List.forall_mem_singleton.2 hpower

end Expr

end Workings

import Workings.Calculus.Integral
import Workings.Proofs.Building

/-!
# Calls in the tables of calculus

The tables of derivatives and of integrals know a call by its name and its argument in parentheses. A
subscript counts only as the base of a logarithm, and a superscript does not count at all, so a call with
one is taken for the plain function. `Expr.call_unevaluated_iff` says which calls of one argument the
tables leave unevaluated.
-/

namespace Workings

namespace Expr

variable {x name : String} {u du inverse e f : Expr} {factors subscript superscript : List Expr}

/-! ### Formulas -/

/-- Neither a derivative nor an integral. -/
structure Evaluated (e : Expr) : Prop where
  deriv : e.shape ≠ .deriv
  integral : e.shape ≠ .integral

theorem Evaluated.of_shape (h : e.shape = .call ∨ e.shape = .pow) : e.Evaluated := by
  constructor <;> rcases h with h | h <;> rw [h] <;> exact Shape.noConfusion

/-- A factor that is neither a product nor one stays a factor. -/
theorem mem_flatFactors (h : f ∈ factors) (hprod : ∀ inner, f ≠ .prod inner) (hone : f.isValue 1 = false) :
    f ∈ flatFactors factors := by
  obtain ⟨before, after, rfl⟩ := List.append_of_mem h
  rw [flatFactors_append, flatFactors_cons hprod, hone]
  exact List.mem_append_right _ List.mem_cons_self

/-- A product with a call or a power as a factor is a product, that factor or zero. -/
theorem evaluated_buildProd (h : f ∈ factors) (hf : f.shape = .call ∨ f.shape = .pow) :
    (buildProd factors).Evaluated := by
  have hmem : f ∈ flatFactors factors := by
    refine mem_flatFactors h (fun inner hinner => ?_) ?_
    · rw [hinner] at hf
      rcases hf with hf | hf <;> cases hf
    · cases f with
      | num n => rcases hf with hf | hf <;> cases hf
      | _ => rfl
  unfold buildProd
  dsimp only
  split
  · exact ⟨Shape.noConfusion, Shape.noConfusion⟩
  · generalize flatFactors factors = flat at hmem
    match flat, hmem with
    | [only], hmem => exact List.mem_singleton.1 hmem ▸ .of_shape hf
    | _ :: _ :: _, _ => exact ⟨Shape.noConfusion, Shape.noConfusion⟩

theorem shape_reciprocal (hu : u.isValue 1 = false) : (buildPow u minusOne).shape = .pow := by
  unfold buildPow
  rw [hu]
  rfl

/-! ### The tables of functions -/

theorem outerDerivative?_eq_none_iff :
    outerDerivative? name u du = none ↔ name ∉ ["sin", "cos", "tan", "exp", "ln", "sqrt"] := by
  unfold outerDerivative?
  split <;> simp_all

theorem logDerivative?_eq_none_iff :
    logDerivative? x name subscript u du = none ↔
      ∀ base, name = "log" → subscript = [base] → base.mentions x = true := by
  unfold logDerivative?
  split
  · simp
  · rename_i hnot
    exact iff_of_true rfl fun base hname hsubscript => (hnot base hname hsubscript).elim

theorem outerIntegral?_eq_none_iff :
    outerIntegral? x name u inverse = none ↔
      name ∉ ["sin", "cos", "exp"] ∧ ¬ (name = "ln" ∧ u = .sym x) := by
  unfold outerIntegral?
  split
  · simp
  · simp
  · simp
  · split
    · simp
    · rename_i hnot
      simpa using hnot x
  · simp_all

/-- The derivative of a function of the table is no derivative. -/
theorem evaluated_outerDerivative (hu : u.isValue 1 = false) (h : outerDerivative? name u du = some e) :
    e.Evaluated := by
  unfold outerDerivative? at h
  split at h <;> cases h
  · exact evaluated_buildProd (f := call1 "cos" u) (by simp) (.inl rfl)
  · exact evaluated_buildProd (f := call1 "sin" u) (by simp) (.inl rfl)
  · exact evaluated_buildProd (f := buildPow (call1 "sec" u) 2) (by simp) (.inr rfl)
  · exact evaluated_buildProd (f := call1 "exp" u) (by simp) (.inl rfl)
  · exact evaluated_buildProd (f := buildPow u minusOne) (by simp) (.inr (shape_reciprocal hu))
  · exact evaluated_buildProd (f := buildPow 2 minusOne) (by simp) (.inr rfl)

theorem evaluated_logDerivative (hu : u.isValue 1 = false)
    (h : logDerivative? x name subscript u du = some e) : e.Evaluated := by
  unfold logDerivative? at h
  split at h
  · split at h <;> cases h
    exact evaluated_buildProd (f := buildPow u minusOne) (by simp) (.inr (shape_reciprocal hu))
  · cases h

/-- The antiderivative of a function of the table is no integral. -/
theorem evaluated_outerIntegral (h : outerIntegral? x name u inverse = some e) : e.Evaluated := by
  unfold outerIntegral? at h
  split at h
  · cases h
    exact evaluated_buildProd (f := call1 "cos" u) (by simp) (.inl rfl)
  · cases h
    exact evaluated_buildProd (f := call1 "sin" u) (by simp) (.inl rfl)
  · cases h
    exact evaluated_buildProd (f := call1 "exp" u) (by simp) (.inl rfl)
  · split at h
    · split at h <;> cases h
      exact ⟨Shape.noConfusion, Shape.noConfusion⟩
    · cases h
  · cases h

/-! ### Calls that are left unevaluated -/

/-- What varies is not a number. -/
theorem isValue_of_differentiate (h : (u.differentiate x).isValue 0 = false) (n : Number) :
    u.isValue n = false := by
  cases u with
  | num _ => cases h
  | _ => rfl

theorem getD_eq_iff {answer : Option Expr} {default : Expr} (h : ∀ e, answer = some e → e ≠ default) :
    answer.getD default = default ↔ answer = none := by
  cases answer with
  | none => exact iff_of_true rfl rfl
  | some e => exact iff_of_false (h e rfl) (Option.some_ne_none e)

/-- A derivative of a call of one argument is left alone where neither the chain rules of the table nor
the one of logarithms apply. -/
theorem differentiate_call_eq_iff (f : Signature) :
    (call f [u] subscript superscript).differentiate x =
        (call f [u] subscript superscript).derivOnce x ↔
      (call f [u] subscript superscript).mentions x = true ∧ (u.differentiate x).isValue 0 = false ∧
        outerDerivative? f.name u (u.differentiate x) = none ∧
        logDerivative? x f.name subscript u (u.differentiate x) = none := by
  rw [differentiate_eq]
  show (if (call f [u] subscript superscript).mentions x = true then
    chainRule x f [u] subscript superscript [u.differentiate x] else 0) = _ ↔ _
  cases hmentions : (call f [u] subscript superscript).mentions x with
  | false => exact iff_of_false Expr.noConfusion fun h => Bool.false_ne_true h.1
  | true =>
    rw [if_pos rfl, chainRule]
    cases hzero : (u.differentiate x).isValue 0 with
    | true => exact iff_of_false Expr.noConfusion fun h => Bool.false_ne_true h.2.1.symm
    | false =>
      have hu := isValue_of_differentiate hzero 1
      rw [if_neg Bool.false_ne_true, getD_eq_iff, Option.or_eq_none_iff]
      · simp
      · intro e he heq
        rcases Option.or_eq_some_iff.1 he with he | ⟨-, he⟩
        · exact (evaluated_outerDerivative hu he).deriv (heq ▸ rfl)
        · exact (evaluated_logDerivative hu he).deriv (heq ▸ rfl)

/-- An integral of a call of one argument is left alone unless the argument is linear and the function is in
the table. -/
theorem integrate_call_eq_iff (f : Signature) :
    (call f [u] subscript superscript).integrate x =
        (call f [u] subscript superscript).indefinite x ↔
      ((u.differentiate x).isNumber = true → (u.differentiate x).isValue 0 = false →
        outerIntegral? x f.name u (buildPow (u.differentiate x) minusOne) = none) := by
  show linearArgumentRule x f [u] subscript superscript = _ ↔ _
  rw [linearArgumentRule]
  split
  · rename_i hleft
    refine iff_of_true rfl fun hnumber hzero => ?_
    rw [hnumber, hzero] at hleft
    cases hleft
  · rename_i hlinear
    rw [getD_eq_iff fun e he heq => (evaluated_outerIntegral he).integral (heq ▸ rfl)]
    simp_all

/-- The tables read the name of a call and its argument in parentheses, and of a logarithm whether its base
varies. So they leave a call of one argument unevaluated if and only if its name is not in the table, or
the rule of the table does not apply to its argument, whatever stands in its subscript and superscript. -/
theorem call_unevaluated_iff (x : String) (f : Signature) (u : Expr)
    (subscript superscript : List Expr) :
    ((call f [u] subscript superscript).differentiate x =
          (call f [u] subscript superscript).derivOnce x ↔
        (call f [u] subscript superscript).mentions x = true ∧
          (u.differentiate x).isValue 0 = false ∧
          f.name ∉ ["sin", "cos", "tan", "exp", "ln", "sqrt"] ∧
          ∀ base, f.name = "log" → subscript = [base] → base.mentions x = true) ∧
      ((call f [u] subscript superscript).integrate x =
          (call f [u] subscript superscript).indefinite x ↔
        ((u.differentiate x).isNumber = true → (u.differentiate x).isValue 0 = false →
          f.name ∉ ["sin", "cos", "exp"] ∧ ¬ (f.name = "ln" ∧ u = .sym x))) := by
  rw [differentiate_call_eq_iff, integrate_call_eq_iff, outerDerivative?_eq_none_iff,
    logDerivative?_eq_none_iff, outerIntegral?_eq_none_iff]
  exact ⟨.rfl, .rfl⟩

/-- The logarithm of `5` to the base `x` is differentiated to `0`, and the square of the sine as if it were
the sine. -/
theorem call_ignores_scripts :
    let log := call ⟨"log", .exactly 1, .exactly 1, .none⟩ [5] [.sym "x"] []
    let square := call ⟨"sin", .exactly 1, .none, .exactly 1⟩ [.sym "x"] [] [2]
    (log.mentions "x" = true ∧ log.differentiate "x" = 0 ∧
        log.differentiate "x" ≠ log.derivOnce "x") ∧
      (square.mentions "x" = true ∧ square.differentiate "x" = call1 "cos" (.sym "x") ∧
        square.differentiate "x" ≠ square.derivOnce "x") ∧
      square.integrate "x" = .prod [minusOne, call1 "cos" (.sym "x")] ∧
        square.integrate "x" ≠ square.indefinite "x" :=
  ⟨⟨rfl, rfl, Expr.noConfusion⟩, ⟨rfl, rfl, Expr.noConfusion⟩, rfl, Expr.noConfusion⟩

end Expr

end Workings

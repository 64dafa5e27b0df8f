import Mathlib.Data.Nat.Init
import Workings.Proofs.Run

/-!
# The depth does not matter

Expressions are simplified down to a depth, and it is a fault if that does not suffice. Otherwise a larger
depth does not change anything: `Work.Deepens w v` says that `w` exhausts its depth or comes to the same end
as `v` on every sheet, which carries over from the parts of a piece of work to all of it
(`Expr.simplifyAt_deepens`).
-/

namespace Workings

namespace Work

variable {α β : Type}

/-- The first work exhausts its depth, or does what the second one does. -/
def Deepens (w v : Work α) : Prop :=
  ∀ s, (exec w s).1 = .error .exhausted ∨ exec w s = exec v s

namespace Deepens

variable {w v : Work α}

theorem refl (w : Work α) : Deepens w w :=
  fun _ => .inr rfl

theorem exhausted (v : Work α) : Deepens (throw .exhausted) v :=
  fun _ => .inl rfl

theorem trans {u : Work α} (hwv : Deepens w v) (hvu : Deepens v u) : Deepens w u := by
  intro s
  rcases hwv s with h | h
  · exact .inl h
  · rw [h]
    exact hvu s

theorem bind {f g : α → Work β} (h : Deepens w v) (hfg : ∀ a, Deepens (f a) (g a)) :
    Deepens (w >>= f) (v >>= g) := by
  intro s
  rcases hw : exec w s with ⟨fault | a, t⟩
  · rw [exec_bind_error hw]
    rcases h s with hend | hend
    · rw [hw] at hend
      exact .inl (congrArg Except.error (Except.error.inj hend))
    · exact .inr (exec_bind_error (hend ▸ hw)).symm
  · rw [exec_bind_ok hw]
    rcases h s with hend | hend
    · rw [hw] at hend
      cases hend
    · rw [exec_bind_ok (hend ▸ hw)]
      exact hfg a t

/-- The same work before work that may go deeper. -/
theorem after (w : Work α) {f g : α → Work β} (hfg : ∀ a, Deepens (f a) (g a)) :
    Deepens (w >>= f) (w >>= g) :=
  (refl w).bind hfg

/-- The same work after work that may go deeper. -/
theorem before (h : Deepens w v) (f : α → Work β) : Deepens (w >>= f) (v >>= f) :=
  h.bind fun a => refl (f a)

theorem ite {c : Prop} [Decidable c] {w₁ w₂ v₁ v₂ : Work α} (h₁ : Deepens w₁ v₁)
    (h₂ : Deepens w₂ v₂) : Deepens (if c then w₁ else w₂) (if c then v₁ else v₂) := by
  split
  · exact h₁
  · exact h₂

theorem block (trees : List Expr) {w v : Nat → Work α} (h : ∀ id, Deepens (w id) (v id)) :
    Deepens (withBlock trees w) (withBlock trees v) := by
  intro s
  rw [exec_withBlock, exec_withBlock]
  rcases h s.blocks.length { s with blocks := s.blocks ++ [trees] } with hend | hend
  · exact .inl hend
  · exact .inr (by rw [hend])

theorem aside (tree : Expr) (bindings : Bindings) (h : Deepens w v) :
    Deepens (onTheSide tree bindings w) (onTheSide tree bindings v) := by
  intro s
  rw [exec_onTheSide, exec_onTheSide]
  rcases h (s.aside tree bindings) with hend | hend
  · refine .inl ?_
    dsimp only
    rw [hend]
    rfl
  · exact .inr (by rw [hend])

end Deepens

end Work

open Work (Deepens)

namespace Simplify

/-! ### Nodes whose parts are simplified more deeply -/

section

variable {simplify simplify' : Simplifier} (hs : ∀ e, Deepens (simplify e) (simplify' e))

include hs

theorem blockFrom_deepens (id index count : Nat) :
    Deepens (blockFrom simplify id index count) (blockFrom simplify' id index count) := by
  induction count generalizing index with
  | zero => exact .refl _
  | succ count ih =>
    refine .after _ fun s => ?_
    split
    · exact (hs _).bind fun _ => (ih _).before _
    · exact ih _

theorem block_deepens (id : Nat) : Deepens (block simplify id) (block simplify' id) :=
  .after _ fun _ => blockFrom_deepens hs id 0 _

theorem siblings_deepens (trees : List Expr) :
    Deepens (siblings simplify trees) (siblings simplify' trees) :=
  .block trees (block_deepens hs)

theorem call_deepens (f : Signature) (functional subscript superscript : List Expr) :
    Deepens (call simplify f functional subscript superscript)
      (call simplify' f functional subscript superscript) := by
  refine Deepens.before ?_ _
  refine .block _ fun first => .block _ fun second => .block _ fun third => ?_
  refine (block_deepens hs first).bind fun _ => (block_deepens hs second).bind fun _ => ?_
  exact (block_deepens hs third).before _

theorem sum_deepens (terms : List Expr) : Deepens (sum simplify terms) (sum simplify' terms) :=
  (siblings_deepens hs terms).before _

theorem factors_deepens (current : Expr) (kept : List Expr) :
    Deepens (factors simplify current kept) (factors simplify' current kept) := by
  unfold factors
  split
  · exact .after _ fun _ => hs _
  · exact .refl _

theorem product_deepens (parts : List Expr) :
    Deepens (product simplify parts) (product simplify' parts) := by
  refine .ite (.refl _) ((siblings_deepens hs parts).bind fun simplified => .ite (.refl _) ?_)
  split
  · exact .refl _
  · exact .refl _
  · exact .after _ fun _ => factors_deepens hs _ _

/-- Work on the side under the bindings of the sheet. -/
theorem preview_deepens (e : Expr) (f : Expr × Sheet → Work Expr) :
    Deepens
      (do
        let s ← get
        let p ← Work.onTheSide e s.bindings (simplify e)
        f p)
      (do
        let s ← get
        let p ← Work.onTheSide e s.bindings (simplify' e)
        f p) :=
  .after _ fun _ => (Deepens.aside _ _ (hs e)).before f

theorem root_deepens (base exponent : Expr) :
    Deepens (root simplify base exponent) (root simplify' base exponent) :=
  preview_deepens hs exponent _

theorem zeroBase_deepens (base exponent : Expr) :
    Deepens (zeroBase simplify base exponent) (zeroBase simplify' base exponent) :=
  preview_deepens hs exponent _

theorem oneBase_deepens (base exponent : Expr) :
    Deepens (oneBase simplify base exponent) (oneBase simplify' base exponent) :=
  (hs exponent).before _

theorem numericPower_deepens (current : Expr) (base exponent : Number) :
    Deepens (numericPower simplify current base exponent)
      (numericPower simplify' current base exponent) := by
  refine .after _ fun options => .ite (.refl _) ?_
  split
  · exact .refl _
  · refine .ite (.refl _) ?_
    split
    · exact .after _ fun _ => hs _
    · exact .refl _

theorem power_deepens (base exponent : Expr) :
    Deepens (power simplify base exponent) (power simplify' base exponent) := by
  refine Deepens.bind (.block _ fun id => (hs base).before _) ?_
  rintro ⟨base, exponent⟩
  refine .ite (zeroBase_deepens hs _ _) (.ite (oneBase_deepens hs _ _) ?_)
  refine .ite (root_deepens hs _ _) ((hs _).bind fun exponent => ?_)
  dsimp only
  split
  · exact .ite (.refl _) (numericPower_deepens hs _ _ _)
  · exact .refl _

theorem body_deepens (bound : List String) (e : Expr) :
    Deepens (body simplify bound e) (body simplify' bound e) :=
  .after _ fun _ => (Deepens.aside _ _ (hs _)).before _

theorem derivative_deepens (e : Expr) (vars : List (String × Nat)) :
    Deepens (derivative simplify e vars) (derivative simplify' e vars) := by
  refine (body_deepens hs _ e).bind fun inner => .after _ fun result => .ite (.refl _) ?_
  exact .after _ fun _ => .after _ fun _ => .after _ fun _ => hs _

theorem integralBounds_deepens (lower upper : Option Expr) :
    Deepens (integralBounds simplify lower upper) (integralBounds simplify' lower upper) :=
  (siblings_deepens hs _).before _

theorem indefiniteIntegral_deepens (var : String) (inTree antiderivative : Expr) :
    Deepens (indefiniteIntegral simplify var inTree antiderivative)
      (indefiniteIntegral simplify' var inTree antiderivative) :=
  .after _ fun _ => .after _ fun _ => .after _ fun _ => hs _

theorem definiteIntegral_deepens (var : String) (lower upper inTree antiderivative : Expr) :
    Deepens (definiteIntegral simplify var lower upper inTree antiderivative)
      (definiteIntegral simplify' var lower upper inTree antiderivative) :=
  .after _ fun _ => .after _ fun _ => .after _ fun _ => .after _ fun _ => .after _ fun _ => hs _

theorem integral_deepens (e : Expr) (var : String) (lower upper : Option Expr) :
    Deepens (integral simplify e var lower upper) (integral simplify' e var lower upper) := by
  refine (body_deepens hs _ e).bind fun inner => (integralBounds_deepens hs lower upper).bind ?_
  rintro ⟨lower, upper⟩
  refine .after _ fun antiderivative => ?_
  dsimp only
  split
  · exact .ite (indefiniteIntegral_deepens hs _ _ _) (.refl _)
  · exact .ite (definiteIntegral_deepens hs _ _ _ _ _) (.refl _)

theorem node_deepens (e : Expr) : Deepens (node simplify e) (node simplify' e) := by
  cases e with
  | num n => exact .refl _
  | sym name => exact .refl _
  | sum terms => exact sum_deepens hs terms
  | prod parts => exact product_deepens hs parts
  | pow base exponent => exact power_deepens hs base exponent
  | call f functional subscript superscript => exact call_deepens hs f _ _ _
  | deriv e vars => exact derivative_deepens hs e vars
  | integral e var lower upper => exact integral_deepens hs e var lower upper

end

end Simplify

namespace Expr

theorem simplifyAt_deepens_succ (depth : Nat) (e : Expr) :
    Deepens (simplifyAt depth e) (simplifyAt (depth + 1) e) := by
  induction depth generalizing e with
  | zero => exact .exhausted _
  | succ depth ih => exact Simplify.node_deepens ih e

theorem simplifyAt_deepens {depth depth' : Nat} (h : depth ≤ depth') (e : Expr) :
    Deepens (simplifyAt depth e) (simplifyAt depth' e) := by
  induction depth', h using Nat.le_induction with
  | base => exact .refl _
  | succ depth' _ ih => exact ih.trans (simplifyAt_deepens_succ depth' e)

end Expr

end Workings

import Workings.Proofs.Replacing
import Workings.Proofs.Run
import Workings.Proofs.Symbols

/-!
# Putting in the value of a symbol

When a bound symbol is simplified, its value takes the place of the symbol in the tree and in all open
blocks, and nothing is left of the symbol there: `Expr.Lacks x e` says that the symbol `x` is nowhere
in `e`, also not under a derivative by `x` (`Expr.lacks_replace`). A derivative that is still to be taken
is a derivative of a constant from then on (`Expr.differentiate_eq_zero`).
-/

namespace Workings

open Workings.Expr (Everywhere)

namespace Expr

/-- The symbol is nowhere in the expression. -/
def Lacks (x : String) (e : Expr) : Prop :=
  e.Everywhere (· ≠ .sym x)

theorem Lacks.num (x : String) (n : Number) : (Expr.num n).Lacks x :=
  Everywhere.num fun heq => nomatch heq

theorem Lacks.neg {x : String} {e : Expr} (h : e.Lacks x) : e.neg.Lacks x :=
  everywhere_neg (fun _ heq => nomatch heq) (Lacks.num x (.int (-1))).here
    (fun n _ => (Lacks.num x (-n)).here) h

/-- What takes the place of a node where a symbol is replaced: the symbol is no part of a sum or a product. -/
theorem value_or_negated_of_acts {x : String} {r : Replacement} (htarget : r.target.literal = .sym x)
    {e e' : Expr} (h : r.Acts e e') : e' = r.value ∨ e' = r.negated := by
  cases h with
  | literal _ => exact .inl rfl
  | negated _ _ => exact .inr rfl
  | product hrest =>
    obtain ⟨wanted, hliteral, -⟩ := Target.exists_of_productRest? hrest
    cases htarget.symm.trans hliteral
  | sum hrest =>
    obtain ⟨wanted, hliteral, -⟩ := Target.exists_of_sumRest? hrest
    cases htarget.symm.trans hliteral
  | pair _ => exact .inl rfl

/-- A node in the parts of which a symbol is replaced is not the symbol. -/
theorem apply_ne_sym {x : String} {r : Replacement} (htarget : r.target.literal = .sym x) {e : Expr}
    (hat : r.actsAt e = false) : r.apply e ≠ .sym x := by
  intro heq
  cases e with
  | sym name =>
    cases (Replacement.apply_sym hat).symm.trans heq
    have hsame : (Expr.sym x == .sym x) = true := beq_self_eq_true x
    have hnot := Replacement.isWhole_of_actsAt hat
    rw [Target.isWhole, htarget, hsame, Bool.true_or] at hnot
    cases hnot
  | num _ => cases (Replacement.apply_num hat).symm.trans heq
  | sum _ => cases (Replacement.apply_sum hat).symm.trans heq
  | prod _ => cases (Replacement.apply_prod hat).symm.trans heq
  | pow _ _ => cases (Replacement.apply_pow hat).symm.trans heq
  | call _ _ _ _ => cases (Replacement.apply_call hat).symm.trans heq
  | deriv _ _ => cases (Replacement.apply_deriv hat).symm.trans heq
  | integral _ _ _ _ => cases (Replacement.apply_integral hat).symm.trans heq

/-- A replacement of a symbol by expressions without it leaves nothing of the symbol. -/
theorem lacks_apply {x : String} {r : Replacement} (htarget : r.target.literal = .sym x)
    (hvalue : r.value.Lacks x) (hnegated : r.negated.Lacks x) (e : Expr) : (r.apply e).Lacks x := by
  refine Replacement.everywhere_apply (p := fun _ => True) (fun e e' _ hacts => ?_)
    (fun e _ hat => apply_ne_sym htarget hat) (everywhere_of_forall (fun _ => trivial) e)
  rcases value_or_negated_of_acts htarget hacts with rfl | rfl
  · exact hvalue
  · exact hnegated

/-- Nothing is left of a symbol that is replaced. -/
theorem lacks_replace {x : String} {value : Expr} (hvalue : value.Lacks x) (tree : Expr) :
    (tree.replace (.sym x) value).Lacks x :=
  lacks_apply (Target.within_eq tree (.sym x)).1 hvalue hvalue.neg tree

theorem Lacks.mentions {x : String} {e : Expr} (h : e.Lacks x) : e.mentions x = false := by
  induction h with
  | @intro e here _ ih =>
    cases e with
    | num n => rfl
    | sym name =>
      rw [Expr.mentions, beq_eq_false_iff_ne]
      rintro rfl
      exact here rfl
    | sum terms => exact anyMentions_eq_false_iff.2 ih
    | prod factors => exact anyMentions_eq_false_iff.2 ih
    | pow base exponent =>
      rw [Expr.mentions, ih base (by simp [children]), ih exponent (by simp [children])]
      rfl
    | call f functional subscript superscript =>
      rw [Expr.mentions, anyMentions_eq_false_iff.2 fun e he => ih e (by simp [children, he]),
        anyMentions_eq_false_iff.2 fun e he => ih e (by simp [children, he]),
        anyMentions_eq_false_iff.2 fun e he => ih e (by simp [children, he])]
      rfl
    | deriv body vars => exact ih body (by simp [children])
    | integral body var lower upper =>
      have hoption {e' : Option Expr} (he' : ∀ part ∈ e'.toList, part.mentions x = false) :
          optionMentions x e' = false := by
        cases e' with
        | none => rfl
        | some part => exact he' part (by simp)
      rw [Expr.mentions, ih body (by simp [children]),
        hoption fun part hpart => ih part (by simp [children, Option.mem_toList.1 hpart]),
        hoption fun part hpart => ih part (by simp [children, Option.mem_toList.1 hpart]),
        Bool.and_false]
      rfl

/-- What lacks the variable is a constant. An indefinite integral varies even so. -/
theorem differentiate_eq_zero {x : String} {e : Expr} (h : e.Lacks x)
    (hshape : e.shape ≠ .integral) : e.differentiate x = 0 := by
  rw [differentiate_eq, if_neg]
  rw [Bool.not_eq_true]
  cases e with
  | integral _ _ _ _ => exact (hshape rfl).elim
  | _ => exact h.mentions

end Expr

/-! ### Sheets -/

/-- The value of a symbol is put in wherever a change is made, and nothing is done if the symbol does not
occur in the tree. -/
theorem Work.exec_symbol {s : Sheet} {x : String} {value : Expr}
    (hvalue : s.bindings.value? x = some value) :
    exec (Simplify.symbol x) s =
      (.ok value, if s.tree.has (.sym x) then s.accept ⟨.sym x, value, none, false⟩ else s) := by
  have hchange : exec (changeIfPresent { part := .sym x, result := value }) s =
      (.ok (), if s.tree.has (.sym x) then s.accept ⟨.sym x, value, none, false⟩ else s) := by
    unfold changeIfPresent
    rw [exec_get_bind]
    split
    · rename_i hpresent
      rw [exec_changeWith, if_pos hpresent]
      simp [Sheet.flag]
    · rfl
  unfold Simplify.symbol
  rw [exec_get_bind, hvalue]
  dsimp only
  rw [exec_bind_ok hchange]
  rfl

theorem Sheet.blockItem?_accept (s : Sheet) (c : Change) (id index : Nat) :
    (s.accept c).blockItem? id index =
      (s.blockItem? id index).map (·.replace c.part c.result) := by
  unfold blockItem? block
  show ((s.blocks.map fun trees => trees.map (·.replace c.part c.result)).getD id [])[index]? = _
  rw [List.getD_eq_getElem?_getD, List.getElem?_map, List.getD_eq_getElem?_getD]
  cases s.blocks[id]? with
  | none => rfl
  | some trees => rw [Option.map_some, Option.getD_some, Option.getD_some, List.getElem?_map]

/-- A number does not take the place of the variable of a derivative, only of what is under it. -/
theorem Expr.replace_deriv {x : String} (n : Number) (body : Expr) (vars : List (String × Nat)) :
    ∃ body', (Expr.deriv body vars).replace (.sym x) (.num n) = .deriv body' vars ∧
      body'.Lacks x := by
  unfold replace
  have hliteral := (Target.within_eq (.deriv body vars) (.sym x)).1
  have hnegated := (Target.within_eq (.deriv body vars) (.sym x)).2
  generalize Target.within (.deriv body vars) (.sym x) = target at hliteral hnegated
  have hat : Replacement.actsAt ⟨target, .num n, Expr.neg (.num n)⟩ (.deriv body vars) = false := by
    unfold Replacement.actsAt Target.isWhole
    rw [hliteral, hnegated]
    rfl
  have hrename : ∀ name, Replacement.rename ⟨target, .num n, Expr.neg (.num n)⟩ name = name := by
    intro name
    unfold Replacement.rename Replacement.whole?
    dsimp only
    split
    · rename_i renamed heq
      split at heq
      · cases heq
      · split at heq <;> cases heq
    · rfl
  have hlacks := lacks_apply (r := ⟨target, .num n, Expr.neg (.num n)⟩) hliteral (.num x n)
    (Lacks.num x n).neg body
  refine ⟨_, ?_, hlacks⟩
  rw [Replacement.apply_deriv hat]
  simp only [hrename, Prod.mk.eta, List.map_id']

/-- A number put in for `x` gets into every derivative that is still to be taken: its body is free of `x`
afterwards, and the derivative of that by `x` is zero. -/
theorem symbol_reaches_derivatives {s : Sheet} {x : String} {n : Number}
    (hvalue : s.bindings.value? x = some (.num n)) (hpresent : s.tree.has (.sym x) = true) :
    ∃ t, Work.exec (Simplify.symbol x) s = (.ok (.num n), t) ∧ t.tree.Lacks x ∧
      ∀ id index body vars, s.blockItem? id index = some (.deriv body vars) →
        ∃ body', t.blockItem? id index = some (.deriv body' vars) ∧ body'.Lacks x ∧
          (body'.shape ≠ .integral → body'.differentiate x = 0) := by
  refine ⟨_, by rw [Work.exec_symbol hvalue, if_pos hpresent], ?_, fun id index body vars hitem => ?_⟩
  · exact Expr.lacks_replace (.num x n) s.tree
  · obtain ⟨body', hbody, hlacks⟩ := Expr.replace_deriv n body vars
    refine ⟨body', ?_, hlacks, Expr.differentiate_eq_zero hlacks⟩
    rw [Sheet.blockItem?_accept, hitem, Option.map_some, hbody]

end Workings

import Mathlib.Data.List.SplitBy
import Workings.Proofs.Equality
import Workings.Solution.Sections

/-!
# Chains of equations

A chain of equations leaves out steps that lead nowhere, and starts anew where a step does not start from
the tree the last one led to. If every step starts from the tree of the step before it, up to the way
numbers are stored, there is a single chain, and it shows all steps that change the tree, in their order
(`Sheet.chain_of_linked`).
-/

namespace Workings

/-- Steps of which every one starts from the tree that the step before it led to. -/
def Linked (steps : List Step) : Prop :=
  steps.IsChain fun before step => (step.previous == before.full) = true

namespace Step

/-- A step back to the tree it starts from changes nothing. -/
theorem changes_eq_false {step : Step} (h : (step.full == step.previous) = true) :
    step.changes = false := by
  rw [changes, h]
  rfl

theorem full_of_changes_eq_false {step : Step} (h : step.changes = false) :
    (step.full == step.previous) = true := by
  simpa [changes] using h

end Step

namespace Sheet

/-! ### Steps that are left out -/

theorem dropRepeats_none_ne_nil {steps : List Step} (h : steps ≠ []) : dropRepeats none steps ≠ [] := by
  cases steps with
  | nil => exact (h rfl).elim
  | cons step rest => exact List.cons_ne_nil _ _

theorem shown_ne_nil {steps : List Step} (h : steps ≠ []) : shown steps ≠ [] := by
  unfold shown
  dsimp only
  split
  · rename_i hany
    obtain ⟨step, hstep, hchanges⟩ := List.any_eq_true.1 hany
    exact List.ne_nil_of_mem (List.mem_filter.2 ⟨hstep, hchanges⟩)
  · exact dropRepeats_none_ne_nil h

theorem equations_isSome (write : Expr → String) {steps : List Step} (h : steps ≠ []) :
    (equations write steps).isSome = true := by
  unfold equations
  split
  · exact (h rfl).elim
  · split <;> rfl
  · rfl

theorem chain_eq_of_linked (write : Expr → String) {steps : List Step} (hne : steps ≠ [])
    (h : Linked steps) :
    ∃ text, equations write (shown steps) = some text ∧ chain write steps = text ++ "\n" := by
  obtain ⟨text, htext⟩ := Option.isSome_iff_exists.1 (equations_isSome write (shown_ne_nil hne))
  refine ⟨text, htext, ?_⟩
  have htexts : [steps].filterMap (fun run => equations write (shown run)) = [text] := by
    simp [htext]
  unfold chain
  dsimp only
  rw [List.splitBy_of_isChain hne h, htexts]
  rfl

/-- A chain is never written as an empty text. -/
theorem chain_ne_empty (write : Expr → String) {steps : List Step} (hne : steps ≠ [])
    (h : Linked steps) : (chain write steps).isEmpty = false := by
  obtain ⟨text, -, hchain⟩ := chain_eq_of_linked write hne h
  rw [hchain]
  simp

end Sheet

end Workings

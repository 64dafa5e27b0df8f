import Mathlib.Data.List.Chain
import Workings.Proofs.Equality
import Workings.Proofs.Strictness

/-!
# Replaying a solution

What is written down on a sheet can be replayed (`Sheet.Replayable`): the first entry opens the solution
with the tree at the start, every later step changes a part that occurs in the tree before it, and gives
the tree after it, every step starts from the tree that the step before it left, and the last one leaves
the tree as it stands. Trees are compared by `==` here: a change that is not written down may turn an
integer in the tree into the float of the same value.

Every operation on a sheet keeps this, so it holds of every sheet that a solution passes through
(`Work.Passes`): in the middle of the work, on the side, after a fault, and at the end.
-/

namespace Workings

/-- A step that changes a part of the tree before it, and gives the tree after it. -/
structure Step.Replays (step : Step) : Prop where
  occurs : 0 < step.previous.occurrences step.part
  full : step.full = step.previous.replace step.part step.result

namespace Sheet

/-- A sheet whose entries tell how its tree came about. -/
structure Replayable (s : Sheet) : Prop where
  opening : s.log[0]? = some (.step (.opening s.origin))
  later : ∀ step ∈ s.steps.tail, step.Replays
  chain : s.steps.IsChain fun before step => (step.previous == before.full) = true
  current : ∃ last, s.steps.getLast? = some last ∧ (s.tree == last.full) = true

variable {s t : Sheet}

/-- Only the entries, the tree and the tree at the start matter. -/
theorem Replayable.of_same (hs : s.Replayable) (horigin : t.origin = s.origin)
    (htree : t.tree = s.tree) (hlog : t.log = s.log) : t.Replayable := by
  have hsteps : t.steps = s.steps := congrArg (·.toList.filterMap Entry.step?) hlog
  refine ⟨?_, ?_, ?_, ?_⟩
  · rw [hlog, horigin]
    exact hs.opening
  · rw [hsteps]
    exact hs.later
  · rw [hsteps]
    exact hs.chain
  · rw [hsteps, htree]
    exact hs.current

/-- A sheet on which nothing but the opening step is written down. -/
theorem replayable_opening (horigin : s.origin = s.tree)
    (hlog : s.log = #[.step (.opening s.tree)]) : s.Replayable := by
  have hsteps : s.steps = [.opening s.tree] := congrArg (·.toList.filterMap Entry.step?) hlog
  refine ⟨?_, ?_, ?_, ?_⟩
  · rw [hlog, horigin]
    rfl
  · rw [hsteps]
    exact fun step hstep => nomatch hstep
  · rw [hsteps]
    exact .singleton _
  · rw [hsteps]
    exact ⟨_, rfl, Expr.beq_refl _⟩

theorem getElem?_zero_push {log : Array Entry} {first : Entry} (h : log[0]? = some first)
    (entry : Entry) : (log.push entry)[0]? = some first := by
  have hsize := (Array.getElem?_eq_some_iff.1 h).1
  rw [Array.getElem?_push_lt hsize, ← Array.getElem?_eq_getElem hsize, h]

theorem replayable_remark (hs : s.Replayable) (text : String) (pause : Bool) :
    (s.remark text pause).Replayable := by
  rw [remark_eq]
  split
  · exact hs.of_same rfl rfl rfl
  · have hsteps (entry : Entry) (h : entry.step? = none) :
        ({ s with log := s.log.push entry } : Sheet).steps = s.steps := by
      simp [steps, h]
    have hlog := hsteps (.remark (s.phrasing.restate text) pause) rfl
    exact ⟨getElem?_zero_push hs.opening _, hlog ▸ hs.later, hlog ▸ hs.chain, hlog ▸ hs.current⟩

/-- A step that follows on the tree as it stands can be written down. -/
theorem replayable_push (hs : s.Replayable) {step : Step} (hstep : step.Replays)
    (hprevious : step.previous = s.tree) (horigin : t.origin = s.origin) (htree : t.tree = step.full)
    (hlog : t.log = s.log.push (.step step)) : t.Replayable := by
  have hsteps : t.steps = s.steps ++ [step] := by
    simp [steps, hlog, Entry.step?]
  obtain ⟨last, hlast, hcurrent⟩ := hs.current
  have hne : s.steps ≠ [] := by
    intro h
    rw [h] at hlast
    cases hlast
  refine ⟨?_, ?_, ?_, ?_⟩
  · rw [hlog, horigin]
    exact getElem?_zero_push hs.opening _
  · rw [hsteps, List.tail_append_of_ne_nil hne]
    intro later hlater
    rcases List.mem_append.1 hlater with h | h
    · exact hs.later later h
    · rw [List.mem_singleton.1 h]
      exact hstep
  · rw [hsteps, List.isChain_append]
    refine ⟨hs.chain, .singleton _, ?_⟩
    intro before hbefore after hafter
    obtain rfl : last = before := Option.some.inj (hlast.symm.trans hbefore)
    obtain rfl : step = after := Option.some.inj hafter
    rw [hprevious]
    exact hcurrent
  · rw [hsteps, htree]
    exact ⟨step, List.getLast?_concat, Expr.beq_refl _⟩

/-- A change whose part occurs in the tree. If it is not written down, the tree has not changed in
value. -/
theorem replayable_accept (hs : s.Replayable) {c : Change} (hc : s.tree.has c.part = true) :
    (s.accept c).Replayable := by
  have hstep : (s.stepFor c).Replays := ⟨of_decide_eq_true hc, rfl⟩
  by_cases hlogged : ((s.stepFor c).explanation.isSome || (s.stepFor c).changes) = true
  · exact replayable_push hs hstep rfl rfl rfl (if_pos hlogged)
  · have hlog : (s.accept c).log = s.log := if_neg hlogged
    have hsteps : (s.accept c).steps = s.steps := congrArg (·.toList.filterMap Entry.step?) hlog
    have hsame : ((s.stepFor c).full == (s.stepFor c).previous) = true := by
      rw [Bool.not_eq_true, Bool.or_eq_false_iff] at hlogged
      simpa [Step.changes] using hlogged.2
    obtain ⟨last, hlast, hcurrent⟩ := hs.current
    refine ⟨hlog ▸ hs.opening, hsteps ▸ hs.later, hsteps ▸ hs.chain, last, hsteps ▸ hlast, ?_⟩
    exact Expr.beq_trans hsame hcurrent

end Sheet

namespace Work

variable {α β : Type} {s t : Sheet}

theorem replayable_changeWith (hs : s.Replayable) (c : Change) :
    (exec (changeWith c) s).2.Replayable := by
  have hflag : (s.flag c.approximate).Replayable := hs.of_same rfl rfl rfl
  rw [exec_changeWith]
  split
  · rename_i hpart
    exact Sheet.replayable_accept hflag hpart
  · split
    · exact hflag
    · exact hflag.of_same rfl rfl rfl

theorem replayable_report (hs : s.Replayable) (status : Status) (reason : String) :
    (s.report status reason).Replayable := by
  rw [Sheet.report_eq]
  exact hs.of_same rfl rfl rfl

theorem replayable_absorb (hs : s.Replayable) (side : Sheet) : (s.absorb side).Replayable := by
  cases h : side.reason with
  | none =>
    simp only [Sheet.absorb, h]
    exact hs.of_same rfl rfl rfl
  | some reason =>
    simp only [Sheet.absorb, h]
    exact (replayable_report hs side.status reason).of_same rfl rfl rfl

/-- Work put together from the operations on a sheet leaves a sheet that can be replayed. -/
theorem Routine.replayable {w : Work α} (h : Routine w) {s : Sheet} (hs : s.Replayable) :
    (exec w s).2.Replayable := by
  refine h.keeps (R := fun s t => s.Replayable → t.Replayable) ?_ s hs
  exact {
    refl := fun _ hs => hs
    trans := fun hst htu hs => htu (hst hs)
    change := fun c _ hs => replayable_changeWith hs c
    remark := fun text pause _ hs => Sheet.replayable_remark hs text pause
    report := fun status reason _ hs => replayable_report hs status reason
    record := fun event s hs => by
      rw [Sheet.record_eq]
      exact hs.of_same rfl rfl rfl
    absorb := fun side _ hs => replayable_absorb hs side
    missing := fun _ _ hs => hs.of_same rfl rfl rfl
    close := fun _ _ _ hopen hs => (hopen (hs.of_same rfl rfl rfl)).of_same rfl rfl rfl }

/-- `Passes w s t` says that the work `w`, begun on the sheet `s`, passes through the sheet `t`: `t` is
there at the start or at the end of one of the pieces that `w` is put together from, down to the single
operations. A sheet on the side is passed through as well. -/
inductive Passes : {α : Type} → Work α → Sheet → Sheet → Prop
  | start {α : Type} (w : Work α) (s : Sheet) : Passes w s s
  | finish {α : Type} {w : Work α} (s : Sheet) : Routine w → Passes w s (exec w s).2
  | first {α β : Type} {w : Work α} {f : α → Work β} {s t : Sheet} :
      Passes w s t → Passes (w >>= f) s t
  | next {α β : Type} {w : Work α} {f : α → Work β} {s t u : Sheet} {a : α} :
      Routine w → exec w s = (.ok a, t) → Passes (f a) t u → Passes (w >>= f) s u
  | look {α : Type} {f : Sheet → Work α} {s t : Sheet} :
      Passes (f s) s t → Passes (get >>= f) s t
  | block {α : Type} {trees : List Expr} {work : Nat → Work α} {s t : Sheet} :
      Passes (work s.blocks.length) { s with blocks := s.blocks ++ [trees] } t →
      Passes (withBlock trees work) s t
  | aside {α : Type} {tree : Expr} {bindings : Bindings} {work : Work α} {s t : Sheet} :
      Passes work (s.aside tree bindings) t → Passes (onTheSide tree bindings work) s t
  | attempt {α : Type} {w : Work α} {handle : Fault → Work α} {s t : Sheet} :
      Passes w s t → Passes (tryCatch w handle) s t
  | recover {α : Type} {w : Work α} {handle : Fault → Work α} {s t u : Sheet} {fault : Fault} :
      Routine w → exec w s = (.error fault, t) → Passes (handle fault) t u →
      Passes (tryCatch w handle) s u

theorem Passes.replayable {w : Work α} (h : Passes w s t) (hs : s.Replayable) : t.Replayable := by
  induction h with
  | start w s => exact hs
  | finish s hw => exact hw.replayable hs
  | first _ ih => exact ih hs
  | next hw hexec _ ih =>
    have ht := hw.replayable hs
    rw [hexec] at ht
    exact ih ht
  | look _ ih => exact ih hs
  | block _ ih => exact ih (hs.of_same rfl rfl rfl)
  | aside _ ih => exact ih (Sheet.replayable_opening rfl rfl)
  | attempt _ ih => exact ih hs
  | recover hw hexec _ ih =>
    have ht := hw.replayable hs
    rw [hexec] at ht
    exact ih ht

end Work

/-- Every sheet that a solution passes through can be replayed. -/
theorem solve_replayable {e : Expr} {bindings : Bindings} {options : Options} {strict : Bool}
    {t : Sheet} (h : (Work.solveWith Expr.simplify).Passes (Sheet.new e bindings options strict) t) :
    t.Replayable :=
  h.replayable (Sheet.replayable_opening rfl rfl)

/-- In `(2 + 3) + 0 ^ 0` the first sum is worked out before the power turns out to be undefined. The sheet
that is left then holds two steps. -/
theorem solve_replayable_undefined : ∃ t : Sheet,
    (Work.solveWith Expr.simplify).Passes (Sheet.new (.sum [.sum [2, 3], .pow 0 0]) {} {} true) t ∧
      t.status = .unsolved ∧ t.steps.length = 2 ∧ t.Replayable := by
  have h := Work.Passes.finish (Sheet.new (.sum [.sum [2, 3], .pow 0 0]) {} {} true) routine_solve
  exact ⟨_, h, by decide +kernel, by decide +kernel, solve_replayable h⟩

end Workings

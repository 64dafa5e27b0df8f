import Workings.Proofs.Routine

/-!
# Strict and tolerant sheets

A strict sheet and a tolerant one with everything else the same are worked on in step for as long as every
change finds its part (`Work.InStep`). The first change whose part does not occur ends the work on the
strict sheet, and is counted on the tolerant one. A strict solution therefore ends in such a fault if
and only if the tolerant solution of the same expression leaves out a change, and where none is left out
the two solutions are the same, entry by entry.
-/

namespace Workings

namespace Sheet

/-- The sheet on which a change of a part that does not occur is left out. -/
def tolerant (s : Sheet) : Sheet :=
  { s with strict := false }

theorem alike_tolerant (s : Sheet) : s.tolerant.Alike s :=
  ⟨rfl, rfl, rfl, rfl, rfl, rfl, rfl⟩

/-- Writing on a sheet that does not depend on how strict it is. -/
structure Neutral (f : Sheet → Sheet) : Prop where
  tolerant : ∀ s, f s.tolerant = (f s).tolerant
  strict : ∀ s, (f s).strict = s.strict
  skipped : ∀ s, (f s).skipped = s.skipped

theorem neutral_remark (text : String) (pause : Bool) : Neutral (·.remark text pause) := by
  refine ⟨fun s => ?_, fun s => ?_, fun s => ?_⟩
  · rw [remark_eq, remark_eq]
    rfl
  · rw [remark_eq]
  · rw [remark_eq]

theorem neutral_report (status : Status) (reason : String) : Neutral (·.report status reason) := by
  refine ⟨fun s => ?_, fun s => ?_, fun s => ?_⟩
  · rw [report_eq, report_eq]
    rfl
  · rw [report_eq]
  · rw [report_eq]

theorem neutral_record (event : Event) : Neutral (·.record event) := by
  refine ⟨fun s => ?_, fun s => ?_, fun s => ?_⟩
  · rw [record_eq, record_eq]
    rfl
  · rw [record_eq]
  · rw [record_eq]

theorem neutral_absorb (side : Sheet) : Neutral (·.absorb side) := by
  cases h : side.reason with
  | none =>
    refine ⟨fun s => ?_, fun s => ?_, fun s => ?_⟩
    · simp only [absorb, h]
      rfl
    · simp only [absorb, h]
    · simp only [absorb, h]
  | some reason =>
    have hreport := neutral_report side.status reason
    refine ⟨fun s => ?_, fun s => ?_, fun s => ?_⟩
    · simp only [absorb, h, hreport.tolerant]
      rfl
    · simp only [absorb, h, hreport.strict]
    · simp only [absorb, h, hreport.skipped]

end Sheet

namespace Work

variable {α β : Type}

/-- The outcome of work that no change has ended. -/
def Unbroken : Except Fault α → Prop
  | .error (.absent _ _) => False
  | _ => True

instance (result : Except Fault α) : Decidable (Unbroken result) :=
  match result with
  | .ok _ => isTrue trivial
  | .error (.undefined _ _) => isTrue trivial
  | .error (.absent _ _) => isFalse id
  | .error .exhausted => isTrue trivial

theorem exists_absent_of_not_unbroken {result : Except Fault α} (h : ¬ Unbroken result) :
    ∃ part tree, result = .error (.absent part tree) := by
  match result with
  | .ok _ => exact (h trivial).elim
  | .error (.undefined _ _) => exact (h trivial).elim
  | .error (.absent part tree) => exact ⟨part, tree, rfl⟩
  | .error .exhausted => exact (h trivial).elim

theorem Unbroken.error {fault : Fault} (h : Unbroken (.error fault : Except Fault α)) :
    Unbroken (.error fault : Except Fault β) := by
  cases fault with
  | absent part tree => exact h
  | undefined reason e => trivial
  | exhausted => trivial

theorem Unbroken.map {result : Except Fault α} (f : α → β) (h : Unbroken result) :
    Unbroken (result.map f) := by
  cases result with
  | ok a => trivial
  | error fault => exact h.error

theorem Unbroken.ne {result : Except Fault α} (h : Unbroken result) (part tree : Expr) :
    result ≠ .error (.absent part tree) := by
  rintro rfl
  exact h

/-! ### Tolerant sheets -/

/-- An outcome on a tolerant sheet: no change has ended the work, the sheet is still tolerant, and
changes left out stay counted. -/
structure GoesOn (s : Sheet) (outcome : Except Fault α × Sheet) : Prop where
  unbroken : Unbroken outcome.1
  tolerant : outcome.2.strict = false
  skipped : s.skipped ≤ outcome.2.skipped

theorem GoesOn.trans {s : Sheet} {first : Except Fault α × Sheet} {second : Except Fault β × Sheet}
    (h : GoesOn s first) (h' : GoesOn first.2 second) : GoesOn s second :=
  ⟨h'.unbroken, h'.tolerant, Nat.le_trans h.skipped h'.skipped⟩

theorem goesOn_modify {f : Sheet → Sheet} (hf : Sheet.Neutral f) {s : Sheet}
    (hs : s.strict = false) : GoesOn s (exec (modify f) s) := by
  rw [exec_modify]
  exact ⟨trivial, (hf.strict s).trans hs, Nat.le_of_eq (hf.skipped s).symm⟩

theorem goesOn_changeWith (c : Change) {s : Sheet} (hs : s.strict = false) :
    GoesOn s (exec (changeWith c) s) := by
  rw [exec_changeWith, hs]
  split
  · exact ⟨trivial, hs, Nat.le_refl _⟩
  · exact ⟨trivial, hs, Nat.le_succ _⟩

/-- After its first part the work goes on. -/
theorem goesOn_bind {w : Work α} {f : α → Work β} {s : Sheet} (hw : GoesOn s (exec w s))
    (hf : ∀ a t, t.strict = false → GoesOn t (exec (f a) t)) :
    GoesOn (exec w s).2 (exec (w >>= f) s) := by
  rcases h : exec w s with ⟨fault | a, t⟩
  · rw [exec_bind_error h]
    rw [h] at hw
    exact ⟨hw.unbroken.error, hw.tolerant, Nat.le_refl _⟩
  · rw [exec_bind_ok h]
    rw [h] at hw
    exact hf a t hw.tolerant

/-- Only a value outside of its domain is recovered from. -/
theorem goesOn_tryCatch {w : Work α} {handle : Fault → Work α} {s : Sheet}
    (hw : GoesOn s (exec w s))
    (hundefined : ∀ reason e t, t.strict = false → GoesOn t (exec (handle (.undefined reason e)) t))
    (hexhausted : handle .exhausted = throw .exhausted) :
    GoesOn (exec w s).2 (exec (tryCatch w handle) s) := by
  rcases h : exec w s with ⟨fault | a, t⟩
  · rw [exec_tryCatch_error h]
    rw [h] at hw
    cases fault with
    | undefined reason e => exact hundefined reason e t hw.tolerant
    | absent part tree => exact hw.unbroken.elim
    | exhausted =>
      rw [hexhausted]
      exact ⟨trivial, hw.tolerant, Nat.le_refl _⟩
  · rw [exec_tryCatch_ok h]
    rw [h] at hw
    exact ⟨trivial, hw.tolerant, Nat.le_refl _⟩

/-- No change ends the work on a tolerant sheet. -/
theorem Routine.goesOn {w : Work α} (h : Routine w) {s : Sheet} (hs : s.strict = false) :
    GoesOn s (exec w s) := by
  induction h generalizing s with
  | pure a => exact ⟨trivial, hs, Nat.le_refl _⟩
  | bind _ _ ihw ihf => exact (ihw hs).trans (goesOn_bind (ihw hs) fun a t => ihf a)
  | undefined reason e => exact ⟨trivial, hs, Nat.le_refl _⟩
  | exhausted => exact ⟨trivial, hs, Nat.le_refl _⟩
  | look _ _ ih => exact ih s hs
  | change c => exact goesOn_changeWith c hs
  | remark text pause => exact goesOn_modify (Sheet.neutral_remark text pause) hs
  | report status reason => exact goesOn_modify (Sheet.neutral_report status reason) hs
  | record event => exact goesOn_modify (Sheet.neutral_record event) hs
  | absorb side => exact goesOn_modify (Sheet.neutral_absorb side) hs
  | ask question => exact ⟨trivial, hs, Nat.le_refl _⟩
  | block trees _ ih =>
    have hwork := ih s.blocks.length (s := { s with blocks := s.blocks ++ [trees] }) hs
    exact ⟨hwork.unbroken, hwork.tolerant, hwork.skipped⟩
  | aside tree bindings _ ih =>
    have hwork := ih (s := s.aside tree bindings) rfl
    exact ⟨hwork.unbroken.map _, hs, Nat.le_refl _⟩
  | rescue _ _ _ hexhausted ihw ihh =>
    have hrest := goesOn_tryCatch (ihw hs) (fun reason e t => ihh reason e) hexhausted
    exact (ihw hs).trans hrest

/-! ### Strict sheets -/

/-- How the work on a strict sheet and on its tolerant copy compare: either they come out the same, or
the strict one ends in a change of a part that does not occur, which the tolerant one has counted. -/
inductive InStep (s : Sheet) : Except Fault α × Sheet → Except Fault α × Sheet → Prop
  | same {result : Except Fault α} {t : Sheet} (unbroken : Unbroken result)
      (strict : t.strict = true) (skipped : t.skipped = s.skipped) :
      InStep s (result, t) (result, t.tolerant)
  | absent {part : Expr} {t : Sheet} {outcome : Except Fault α × Sheet}
      (absent : t.tree.has part = false) (skipped : s.skipped < outcome.2.skipped) :
      InStep s (.error (.absent part t.tree), t) outcome

theorem inStep_modify {f : Sheet → Sheet} (hf : Sheet.Neutral f) {s : Sheet}
    (hs : s.strict = true) : InStep s (exec (modify f) s) (exec (modify f) s.tolerant) := by
  rw [exec_modify, exec_modify, hf.tolerant]
  exact .same trivial ((hf.strict s).trans hs) (hf.skipped s)

theorem inStep_changeWith (c : Change) {s : Sheet} (hs : s.strict = true) :
    InStep s (exec (changeWith c) s) (exec (changeWith c) s.tolerant) := by
  rw [exec_changeWith, exec_changeWith]
  by_cases hpart : s.tree.has c.part = true
  · have htolerant : s.tolerant.tree.has c.part = true := hpart
    rw [if_pos hpart, if_pos htolerant]
    exact .same trivial hs rfl
  · have htolerant : ¬ s.tolerant.tree.has c.part = true := hpart
    rw [if_neg hpart, if_neg htolerant, if_pos hs]
    exact .absent (t := s.flag c.approximate) (Bool.eq_false_iff.2 hpart) (Nat.lt_succ_self _)

/-- Work that follows on sheets in step is in step with the start. -/
theorem InStep.after {s t : Sheet} {strict tolerant : Except Fault α × Sheet}
    (h : InStep t strict tolerant) (hskipped : t.skipped = s.skipped) :
    InStep s strict tolerant := by
  cases h with
  | same unbroken strict skipped => exact .same unbroken strict (skipped.trans hskipped)
  | absent absent skipped => exact .absent absent (hskipped ▸ skipped)

/-- Closing a block does not change how the work came out. -/
theorem InStep.close {s : Sheet} {strict tolerant : Except Fault α × Sheet}
    (h : InStep s strict tolerant) (count : Nat) :
    InStep s (strict.1, { strict.2 with blocks := strict.2.blocks.take count })
      (tolerant.1, { tolerant.2 with blocks := tolerant.2.blocks.take count }) := by
  cases h with
  | @same result t unbroken strict skipped =>
    exact .same (t := { t with blocks := t.blocks.take count }) unbroken strict skipped
  | @absent part t outcome absent skipped =>
    exact .absent (t := { t with blocks := t.blocks.take count }) absent skipped

theorem inStep_bind {w : Work α} {f : α → Work β} {s : Sheet}
    (hw : InStep s (exec w s) (exec w s.tolerant))
    (hf : ∀ a t, t.strict = true → InStep t (exec (f a) t) (exec (f a) t.tolerant))
    (hgoes : GoesOn (exec w s.tolerant).2 (exec (w >>= f) s.tolerant)) :
    InStep s (exec (w >>= f) s) (exec (w >>= f) s.tolerant) := by
  generalize hstrict : exec w s = strict at hw
  generalize htolerant : exec w s.tolerant = tolerant at hw hgoes
  cases hw with
  | @same result t unbroken strict skipped =>
    cases result with
    | error fault =>
      rw [exec_bind_error hstrict, exec_bind_error htolerant]
      exact .same unbroken.error strict skipped
    | ok a =>
      rw [exec_bind_ok hstrict, exec_bind_ok htolerant]
      exact (hf a t strict).after skipped
  | absent absent skipped =>
    rw [exec_bind_error hstrict]
    exact .absent absent (Nat.lt_of_lt_of_le skipped hgoes.skipped)

theorem inStep_tryCatch {w : Work α} {handle : Fault → Work α} {s : Sheet}
    (hw : InStep s (exec w s) (exec w s.tolerant))
    (hundefined : ∀ reason e t, t.strict = true →
      InStep t (exec (handle (.undefined reason e)) t) (exec (handle (.undefined reason e)) t.tolerant))
    (habsent : ∀ part tree, handle (.absent part tree) = throw (.absent part tree))
    (hexhausted : handle .exhausted = throw .exhausted)
    (hgoes : GoesOn (exec w s.tolerant).2 (exec (tryCatch w handle) s.tolerant)) :
    InStep s (exec (tryCatch w handle) s) (exec (tryCatch w handle) s.tolerant) := by
  generalize hstrict : exec w s = strict at hw
  generalize htolerant : exec w s.tolerant = tolerant at hw hgoes
  cases hw with
  | @same result t unbroken strict skipped =>
    cases result with
    | ok a =>
      rw [exec_tryCatch_ok hstrict, exec_tryCatch_ok htolerant]
      exact .same trivial strict skipped
    | error fault =>
      rw [exec_tryCatch_error hstrict, exec_tryCatch_error htolerant]
      cases fault with
      | undefined reason e => exact (hundefined reason e t strict).after skipped
      | absent part tree => exact unbroken.elim
      | exhausted =>
        rw [hexhausted]
        exact .same trivial strict skipped
  | absent absent skipped =>
    rw [exec_tryCatch_error hstrict, habsent]
    exact .absent absent (Nat.lt_of_lt_of_le skipped hgoes.skipped)

/-- Work on a strict sheet and on its tolerant copy is in step up to the first part that does not
occur. -/
theorem Routine.inStep {w : Work α} (h : Routine w) {s : Sheet} (hs : s.strict = true) :
    InStep s (exec w s) (exec w s.tolerant) := by
  induction h generalizing s with
  | pure a => exact .same trivial hs rfl
  | bind hw hf ihw ihf =>
    have hgoes := goesOn_bind (hw.goesOn (s := s.tolerant) rfl) fun a t ht => (hf a).goesOn ht
    exact inStep_bind (ihw hs) (fun a t => ihf a) hgoes
  | undefined reason e => exact .same trivial hs rfl
  | exhausted => exact .same trivial hs rfl
  | look _ halike ih =>
    rw [exec_get_bind, exec_get_bind, halike _ _ s.alike_tolerant]
    exact ih s hs
  | change c => exact inStep_changeWith c hs
  | remark text pause => exact inStep_modify (Sheet.neutral_remark text pause) hs
  | report status reason => exact inStep_modify (Sheet.neutral_report status reason) hs
  | record event => exact inStep_modify (Sheet.neutral_record event) hs
  | absorb side => exact inStep_modify (Sheet.neutral_absorb side) hs
  | ask question => exact .same trivial hs rfl
  | block trees _ ih =>
    have hwork := ih s.blocks.length (s := { s with blocks := s.blocks ++ [trees] }) hs
    have hafter : InStep s _ _ := hwork.after rfl
    exact hafter.close s.blocks.length
  | aside tree bindings hwork _ =>
    -- The sheet on the side is tolerant and the same one for both.
    have hside := hwork.goesOn (s := s.aside tree bindings) rfl
    exact .same (hside.unbroken.map _) hs rfl
  | rescue hw hh habsent hexhausted ihw ihh =>
    have hgoes := goesOn_tryCatch (hw.goesOn (s := s.tolerant) rfl)
      (fun reason e t ht => (hh reason e).goesOn ht) hexhausted
    exact inStep_tryCatch (ihw hs) (fun reason e t => ihh reason e) habsent hexhausted hgoes

end Work

/-- What comes of solving an expression, with the sheet also if it ends in a fault. -/
def worked (e : Expr) (bindings : Bindings) (options : Options) (strict : Bool) :
    Except Fault Expr × Sheet :=
  (Work.solveWith Expr.simplify).exec (Sheet.new e bindings options strict)

theorem solve_eq_error_iff {e : Expr} {bindings : Bindings} {options : Options} {strict : Bool}
    {fault : Fault} :
    solve e bindings options strict = .error fault ↔
      (worked e bindings options strict).1 = .error fault := by
  unfold solve worked
  rw [Sheet.solve_eq]
  rcases Work.exec _ _ with ⟨_ | _, _⟩ <;> simp

/-- The solutions of one expression on a strict and on a tolerant sheet are in step. -/
theorem worked_inStep (e : Expr) (bindings : Bindings) (options : Options) :
    Work.InStep (Sheet.new e bindings options true) (worked e bindings options true)
      (worked e bindings options false) :=
  routine_solve.inStep (s := Sheet.new e bindings options true) rfl

/-- A strict solution finds the part of every change if and only if the tolerant solution leaves no
change out. Otherwise it ends in a fault that names a part and a tree which does not have it. -/
theorem solve_strict_finds_every_part_iff (e : Expr) (bindings : Bindings) (options : Options) :
    ((∀ part tree, solve e bindings options true ≠ .error (.absent part tree)) ↔
      (worked e bindings options false).2.skipped = 0) ∧
    ∀ part tree, solve e bindings options true = .error (.absent part tree) →
      tree.has part = false := by
  have h := worked_inStep e bindings options
  simp only [ne_eq, solve_eq_error_iff]
  generalize worked e bindings options true = strict at h
  generalize worked e bindings options false = tolerant at h
  cases h with
  | same unbroken _ skipped =>
    refine ⟨iff_of_true unbroken.ne ?_, fun part tree h => (unbroken.ne part tree h).elim⟩
    exact skipped
  | @absent part t outcome absent skipped =>
    refine ⟨iff_of_false (fun h => h part t.tree rfl) (Nat.ne_of_gt ?_), ?_⟩
    · exact Nat.lt_of_le_of_lt (Nat.zero_le _) skipped
    · rintro _ _ ⟨⟩
      exact absent

/-- A strict solution may miss a part that it has itself taken away: in `2 * 3 + 2 * 3 * 4` the first
product is worked out to `6` in the second one as well, but not in the tree, where `4 * 6` is missing. -/
theorem solve_strict_misses_part :
    ∃ part tree, solve (.sum [.prod [2, 3], .prod [2, 3, 4]]) {} {} true =
      .error (.absent part tree) := by
  have h : ¬ Work.Unbroken (solve (.sum [.prod [2, 3], .prod [2, 3, 4]]) {} {} true) := by
    decide +kernel
  exact Work.exists_absent_of_not_unbroken h

theorem solve_eq_ok_iff {e : Expr} {bindings : Bindings} {options : Options} {strict : Bool}
    {result : Expr} {sheet : Sheet} :
    solve e bindings options strict = .ok (result, sheet) ↔
      worked e bindings options strict = (.ok result, sheet) := by
  unfold solve worked
  rw [Sheet.solve_eq]
  rcases Work.exec _ _ with ⟨_ | _, _⟩ <;> simp

/-- What is found on a strict sheet is found on a tolerant one too, with the same tree, and no change is left
out. -/
theorem solve_of_strict {e : Expr} {bindings : Bindings} {options : Options} {result : Expr} {t : Sheet}
    (h : solve e bindings options true = .ok (result, t)) (strict : Bool) :
    ∃ u, solve e bindings options strict = .ok (result, u) ∧ u.tree = t.tree ∧ u.skipped = 0 := by
  have hstep := worked_inStep e bindings options
  simp only [solve_eq_ok_iff] at h ⊢
  rw [h] at hstep
  generalize htolerant : worked e bindings options false = tolerant at hstep
  cases hstep with
  | same _ _ skipped =>
    cases strict with
    | true => exact ⟨t, h, rfl, skipped⟩
    | false => exact ⟨t.tolerant, htolerant, rfl, skipped⟩

/-- A strict solution is found if and only if a tolerant one is found that leaves no change out. The
tolerant solution then has the same result, and its sheet is the same in everything but strictness. -/
theorem solve_strict_iff_tolerant (e : Expr) (bindings : Bindings) (options : Options) :
    ((∃ result sheet, solve e bindings options true = .ok (result, sheet)) ↔
      ∃ result sheet, solve e bindings options false = .ok (result, sheet) ∧ sheet.skipped = 0) ∧
    ∀ result sheet, solve e bindings options true = .ok (result, sheet) →
      solve e bindings options false = .ok (result, sheet.tolerant) := by
  have h := worked_inStep e bindings options
  simp only [solve_eq_ok_iff]
  generalize worked e bindings options true = strict at h
  generalize worked e bindings options false = tolerant at h
  cases h with
  | @same result t _ _ skipped =>
    have hskipped : t.tolerant.skipped = 0 := skipped
    constructor
    · constructor
      · rintro ⟨a, s, h⟩
        cases h
        exact ⟨a, t.tolerant, rfl, hskipped⟩
      · rintro ⟨a, s, h, -⟩
        cases h
        exact ⟨a, t, rfl⟩
    · intro a s h
      cases h
      rfl
  | @absent part t outcome absent skipped =>
    refine ⟨iff_of_false ?_ ?_, fun a s h => nomatch h⟩
    · rintro ⟨a, s, h⟩
      cases h
    · rintro ⟨a, s, rfl, hskipped⟩
      exact Nat.not_lt_zero _ (hskipped ▸ skipped)

end Workings

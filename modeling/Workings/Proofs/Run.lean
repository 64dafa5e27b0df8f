import Workings.Solution.Solve

/-!
# Running work on a sheet

`Work.exec w s` is the outcome of the work `w` on the sheet `s`: its result or its fault, together with
the sheet it leaves behind. The lemmas of this file say what the operations of `Work` do to a sheet, so
that proofs about solutions do not have to open the monad.
-/

namespace Workings

namespace Sheet

theorem remark_eq (s : Sheet) (text : String) (pause : Bool) :
    s.remark text pause = { s with
      log := if (s.log.back?.bind Entry.text?) == some (s.phrasing.restate text) then s.log
        else s.log.push (.remark (s.phrasing.restate text) pause) } := by
  unfold remark
  dsimp only
  split <;> rfl

theorem report_eq (s : Sheet) (status : Status) (reason : String) :
    s.report status reason = { s with
      status := if s.status.severity < status.severity then status else s.status
      reason := if s.status.severity < status.severity then some reason
        else s.reason.or (some reason) } := by
  unfold report
  split <;> rfl

theorem record_eq (s : Sheet) (event : Event) :
    s.record event = { s with
      tags := if event.rule.isEmpty then s.tags else insertTag event.rule s.tags
      events := s.events.push event } := by
  unfold record tag
  split <;> rfl

end Sheet

namespace Work

variable {α β : Type}

/-- The outcome of work on a sheet, and the sheet afterwards. -/
def exec (w : Work α) (s : Sheet) : Except Fault α × Sheet :=
  w.run.run s

theorem exec_modify (f : Sheet → Sheet) (s : Sheet) : exec (modify f) s = (.ok (), f s) := rfl

theorem exec_bind (w : Work α) (f : α → Work β) (s : Sheet) :
    exec (w >>= f) s = match exec w s with
      | (.ok a, t) => exec (f a) t
      | (.error fault, t) => (.error fault, t) := by
  show (ExceptT.bindCont f (w.run.run s).1).run (w.run.run s).2 = _
  unfold exec
  rcases h : w.run.run s with ⟨_ | a, t⟩ <;> rfl

/-- Work that goes on after a result is the work that follows, on the sheet left behind. -/
theorem exec_bind_ok {w : Work α} {f : α → Work β} {s t : Sheet} {a : α}
    (h : exec w s = (.ok a, t)) : exec (w >>= f) s = exec (f a) t := by
  rw [exec_bind, h]

/-- A fault ends all of the work. -/
theorem exec_bind_error {w : Work α} {f : α → Work β} {s t : Sheet} {fault : Fault}
    (h : exec w s = (.error fault, t)) : exec (w >>= f) s = (.error fault, t) := by
  rw [exec_bind, h]

/-- Work that gives a result has given one at each step. -/
theorem of_exec_bind_ok {w : Work α} {f : α → Work β} {s u : Sheet} {b : β}
    (h : exec (w >>= f) s = (.ok b, u)) :
    ∃ a t, exec w s = (.ok a, t) ∧ exec (f a) t = (.ok b, u) := by
  rcases hw : exec w s with ⟨fault | a, t⟩
  · rw [exec_bind_error hw] at h
    cases h
  · rw [exec_bind_ok hw] at h
    exact ⟨a, t, rfl, h⟩

theorem exec_get_bind (f : Sheet → Work α) (s : Sheet) : exec (get >>= f) s = exec (f s) s := rfl

theorem exec_options_bind (f : Options → Work α) (s : Sheet) :
    exec (options >>= f) s = exec (f s.options) s := rfl

theorem exec_written_bind (e : Expr) (f : String → Work α) (s : Sheet) :
    exec (written e >>= f) s = exec (f (s.write e)) s := rfl

theorem exec_remark_bind (text : String) (f : Unit → Work α) (s : Sheet) :
    exec (remark text >>= f) s = exec (f ()) (s.remark text false) := rfl

theorem exec_report_bind (status : Status) (reason : String) (f : Unit → Work α) (s : Sheet) :
    exec (report status reason >>= f) s = exec (f ()) (s.report status reason) := rfl

theorem exec_tryCatch (w : Work α) (handle : Fault → Work α) (s : Sheet) :
    exec (tryCatch w handle) s = match exec w s with
      | (.ok a, t) => (.ok a, t)
      | (.error fault, t) => exec (handle fault) t := by
  have opened : exec (tryCatch w handle) s = (ExceptT.tryCatch w handle).run.run s := rfl
  rw [opened]
  unfold exec ExceptT.tryCatch
  simp only [ExceptT.run, ExceptT.mk, StateT.run, bind, StateT.bind]
  cases w s with
  | mk result t => cases result <;> rfl

theorem exec_tryCatch_ok {w : Work α} {handle : Fault → Work α} {s t : Sheet} {a : α}
    (h : exec w s = (.ok a, t)) : exec (tryCatch w handle) s = (.ok a, t) := by
  rw [exec_tryCatch, h]

theorem exec_tryCatch_error {w : Work α} {handle : Fault → Work α} {s t : Sheet} {fault : Fault}
    (h : exec w s = (.error fault, t)) : exec (tryCatch w handle) s = exec (handle fault) t := by
  rw [exec_tryCatch, h]

/-- A change of a part that occurs is made, and any other is a fault or is left out. -/
theorem exec_changeWith (c : Change) (s : Sheet) :
    exec (changeWith c) s =
      if s.tree.has c.part then (.ok (), (s.flag c.approximate).accept c)
      else if s.strict then (.error (.absent c.part s.tree), s.flag c.approximate)
      else (.ok (), { s.flag c.approximate with skipped := s.skipped + 1 }) := by
  unfold changeWith
  rw [exec_bind, exec_modify]
  simp only [exec_get_bind]
  show exec (if s.tree.has c.part then _ else if s.strict then _ else _) _ = _
  split
  · rfl
  · split <;> rfl

/-- Work in a block is work with the block open, which is closed afterwards. -/
theorem exec_withBlock (trees : List Expr) (w : Nat → Work α) (s : Sheet) :
    exec (withBlock trees w) s =
      let outcome := exec (w s.blocks.length) { s with blocks := s.blocks ++ [trees] }
      (outcome.1, { outcome.2 with blocks := outcome.2.blocks.take s.blocks.length }) :=
  rfl

/-- Work on the side is work on a sheet of its own. -/
theorem exec_onTheSide (tree : Expr) (bindings : Bindings) (w : Work α) (s : Sheet) :
    exec (onTheSide tree bindings w) s =
      let outcome := exec w (s.aside tree bindings)
      (outcome.1.map fun a => (a, outcome.2), { s with missing := outcome.2.missing }) :=
  rfl

end Work

/-- A solution is the outcome of the work on its sheet, which is not given back with a fault. -/
theorem Sheet.solve_eq (s : Sheet) : s.solve =
    match Work.exec (Work.solveWith Expr.simplify) s with
    | (.ok result, solved) => .ok (result, solved)
    | (.error fault, _) => .error fault :=
  rfl

/-- Whether a solution is found of which `p` holds. -/
def Solves (e : Expr) (bindings : Bindings) (options : Options) (strict : Bool)
    (p : Expr → Sheet → Bool) : Bool :=
  match solve e bindings options strict with
  | .ok (result, sheet) => p result sheet
  | .error _ => false

theorem exists_of_solves {e : Expr} {bindings : Bindings} {options : Options} {strict : Bool}
    {p : Expr → Sheet → Bool} (h : Solves e bindings options strict p = true) :
    ∃ result sheet, solve e bindings options strict = .ok (result, sheet) ∧
      p result sheet = true := by
  unfold Solves at h
  split at h
  · rename_i hsolve
    exact ⟨_, _, hsolve, h⟩
  · cases h

end Workings

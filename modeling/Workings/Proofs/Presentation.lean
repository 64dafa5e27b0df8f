import Workings.Proofs.Lockstep

/-!
# Presentation does not matter for what is worked out

Two sheets that differ in their presentation only, in the source of messages, the form of expressions and
the options on wording, are worked out to the same outcome (`Sheet.solve_presentedBy`): the same fault, or
the same result, tree, status, rules and changes of the tree, step by step. Only explanations and remarks
can be different.
-/

namespace Workings

/-- What a worked solution comes to, apart from its words. -/
structure Outcome where
  tree : Expr
  status : Status
  reason : Option String
  approximate : Bool
  skipped : Nat
  tags : List String
  events : Array Event
  /-- The steps that change the tree, without their explanations. -/
  moves : List Step

/-- What a sheet comes to, apart from its words. -/
def Sheet.outcome (s : Sheet) : Outcome where
  tree := s.tree
  status := s.status
  reason := s.reason
  approximate := s.approximate
  skipped := s.skipped
  tags := s.tags
  events := s.events
  moves := moves s.log

/-- Sheets that may differ in their words, with any expressions on them. -/
def Likeness.wordless : Likeness where
  symbol _ := True
  calculus := True
  whole _ _ := trivial
  worded := False

namespace Sheet

theorem like_presentedBy (s : Sheet) (p : Presentation) :
    s.Like .wordless s.log s.log (s.presentedBy p) where
  tree := rfl
  blocks := rfl
  strict := rfl
  skipped := rfl
  approximate := rfl
  status := rfl
  reason := rfl
  events := rfl
  tags := rfl
  bindings := .refl trivial s.bindings
  options := ⟨⟨p, rfl⟩, False.elim⟩
  words := False.elim
  coversBlocks := fun _ _ e _ => Vocabulary.covers_of_calculus trivial e
  unrecorded := fun hnot => absurd trivial hnot
  log := .refl False.elim

theorem Like.outcome_eq {k : Likeness} {before : Array Entry} {s t : Sheet}
    (h : s.Like k before before t) : s.outcome = t.outcome := by
  obtain ⟨entries, entries', hs, ht, hmoves, -⟩ := h.log
  have hlog : moves s.log = moves t.log := by
    rw [hs, ht, moves_append, moves_append, hmoves]
  unfold outcome
  rw [h.tree, h.status, h.reason, h.approximate, h.skipped, h.tags, h.events, hlog]

end Sheet

namespace Work

/-- Putting in the values of symbols looks at the bindings and at the tree at the start. -/
theorem substituteValues_presentedBy (s : Sheet) (p : Presentation) :
    Agree .wordless Likeness.wordless.Same s.log s.log (exec substituteValues s)
      (exec substituteValues (s.presentedBy p)) := by
  have hcovers : ∀ e, Likeness.wordless.Covers e := Vocabulary.covers_of_calculus trivial
  unfold substituteValues
  refine Parallel.lookAt ?_ (s.like_presentedBy p)
  refine .ite ?_ (.pure (.refl (hcovers _)))
  refine (Parallel.answer (answers_joinValues _) (answers_joinValues _) False.elim).bind ?_
  intro listed listed' _
  refine .remarkOn _ (fun hk => False.elim hk) ((Parallel.rewrite _ (hcovers _)).andThen ?_)
  exact .pure (.refl (hcovers _))

/-- A solution goes on in parallel in any two presentations of a sheet. -/
theorem solve_agree (s : Sheet) (p : Presentation) :
    Agree .wordless Eq s.log s.log (exec (solveWith Expr.simplify) s)
      (exec (solveWith Expr.simplify) (s.presentedBy p)) := by
  rw [solveWith_eq]
  refine (substituteValues_presentedBy s p).bind ?_
  rintro e _ ⟨rfl, he⟩
  exact settle_parallel (fun _ => Expr.simplify_parallel) he

end Work

/-- The presentation of a sheet does not matter for what is worked out: in any other presentation a
solution ends in the same fault, or has the same result and the same outcome. -/
theorem Sheet.solve_presentedBy (s : Sheet) (p : Presentation) :
    (s.presentedBy p).solve.map (fun (result, solved) => (result, solved.outcome)) =
      s.solve.map fun (result, solved) => (result, solved.outcome) := by
  have h := Work.solve_agree s p
  have hend := h.eq ((Work.recovered_substituteValues).bind (Work.recovered_settle _))
  have houtcome := h.like.outcome_eq
  rw [solve_eq, solve_eq]
  generalize Work.exec (Work.solveWith Expr.simplify) s = first at hend houtcome
  generalize Work.exec (Work.solveWith Expr.simplify) (s.presentedBy p) = second at hend houtcome
  obtain ⟨result, solved⟩ := first
  obtain ⟨result', solved'⟩ := second
  obtain rfl : result = result' := hend
  cases result with
  | error fault => rfl
  | ok e => exact congrArg (fun outcome => Except.ok (e, outcome)) houtcome.symm

end Workings

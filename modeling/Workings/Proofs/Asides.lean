import Workings.Proofs.Reports

/-!
# What is worked out on the side

Three sites work on the side: the body of a derivative or an integral is simplified with its variables
unbound, and the exponents of a root and of a zero base are simplified before the power is touched. The
relation `Work.Draws` follows the work of a solution and names each sheet that is filled on the side,
together with the sites that lead to it. A body hands its outcome on when it is done, so nothing that was
estimated or left undone in it gets lost, however deep bodies are nested (`solve_covers_bodies`). An
exponent does not: its value is used, and what was reported on the way to it is dropped.
-/

namespace Workings

/-- A place where something is worked out on the side. -/
inductive Site
  /-- The body of a derivative or an integral. -/
  | body
  /-- The exponent of a root. -/
  | rootExponent
  /-- The exponent of a base that is zero. -/
  | zeroBaseExponent
  deriving Repr, DecidableEq

namespace Work

open Simplify (body root zeroBase)

variable {α β : Type} {s t side : Sheet} {path : List Site}

/-- `Opens site w s inner aside` says that the work `w`, begun on the sheet `s`, is the work of the site,
and does the work `inner` on the sheet `aside` on the side. -/
inductive Opens : Site → Work Expr → Sheet → Work Expr → Sheet → Prop
  | body (depth : Nat) (bound : List String) (e : Expr) (s : Sheet) {bindings : Bindings} {inner : Expr} :
      bindings = s.bindings.without bound → inner = bindings.replaceSymbols e →
      Opens .body (body (Expr.simplifyAt depth) bound e) s (Expr.simplifyAt depth inner)
        (s.aside inner bindings)
  | rootExponent (depth : Nat) (base exponent : Expr) (s : Sheet) :
      Opens .rootExponent (root (Expr.simplifyAt depth) base exponent) s
        (Expr.simplifyAt depth exponent) (s.aside exponent s.bindings)
  | zeroBaseExponent (depth : Nat) (base exponent : Expr) (s : Sheet) :
      Opens .zeroBaseExponent (zeroBase (Expr.simplifyAt depth) base exponent) s
        (Expr.simplifyAt depth exponent) (s.aside exponent s.bindings)

/-- `Draws w s path side` says that the work `w`, begun on the sheet `s`, fills the sheet `side` on the side
and goes on with the result. The path leads to it from the outside in: sites are opened within sites. -/
inductive Draws : {α : Type} → Work α → Sheet → List Site → Sheet → Prop
  | here {w inner : Work Expr} {s aside side : Sheet} {site : Site} {result : Expr} :
      Opens site w s inner aside → exec inner aside = (.ok result, side) → Draws w s [site] side
  | within {w inner : Work Expr} {s aside outer side : Sheet} {site : Site} {path : List Site}
      {result : Expr} :
      Opens site w s inner aside → exec inner aside = (.ok result, outer) →
      Draws inner aside path side → Draws w s (site :: path) side
  | first {α β : Type} {w : Work α} {f : α → Work β} {s side : Sheet} {path : List Site} :
      Draws w s path side → (∀ a, Routine (f a)) → Draws (w >>= f) s path side
  | next {α β : Type} {w : Work α} {f : α → Work β} {s t side : Sheet} {path : List Site} {a : α} :
      exec w s = (.ok a, t) → Draws (f a) t path side → Draws (w >>= f) s path side
  | look {α : Type} {f : Sheet → Work α} {s side : Sheet} {path : List Site} :
      Draws (f s) s path side → Draws (get >>= f) s path side
  | block {α : Type} {trees : List Expr} {work : Nat → Work α} {s side : Sheet} {path : List Site} :
      Draws (work s.blocks.length) { s with blocks := s.blocks ++ [trees] } path side →
      Draws (withBlock trees work) s path side
  | attempt {α : Type} {w : Work α} {handle : Fault → Work α} {s t side : Sheet} {path : List Site}
      {a : α} :
      exec w s = (.ok a, t) → Draws w s path side → Draws (tryCatch w handle) s path side

/-- Work on the side starts without an outcome, so it says why whenever it is not exact. -/
theorem Opens.justified {w inner : Work Expr} {aside : Sheet} {site : Site}
    (h : Opens site w s inner aside) : (exec inner aside).2.Justified := by
  cases h <;> exact (Expr.simplifyAt_routine _ _).justified fun hstatus => absurd rfl hstatus

/-- A body hands its outcome on. -/
theorem Opens.covers {w inner : Work Expr} {aside side : Sheet} {result : Expr}
    (h : Opens .body w s inner aside) (hexec : exec inner aside = (.ok result, side)) :
    (exec w s).2.Covers side := by
  have hside : side.Justified := by
    have hjustified := h.justified
    rw [hexec] at hjustified
    exact hjustified
  cases h with
  | body depth bound e s hbindings hinner =>
    subst hbindings hinner
    have hbody : (exec (Simplify.body (Expr.simplifyAt depth) bound e) s).2 =
        { s with missing := side.missing }.absorb side := by
      unfold Simplify.body
      rw [exec_get_bind, exec_bind, exec_onTheSide, hexec]
      rfl
    rw [hbody]
    exact hside.covers_absorb _

/-- Nothing is lost of the outcome of what is worked out in bodies, or in bodies within bodies. -/
theorem Draws.covers {w : Work α} (h : Draws w s path side) (hpath : ∀ site ∈ path, site = .body) :
    (exec w s).2.Covers side := by
  induction h with
  | here hopens hexec =>
    obtain rfl := hpath _ (List.mem_singleton_self _)
    exact hopens.covers hexec
  | within hopens hexec _ ih =>
    obtain rfl := hpath _ List.mem_cons_self
    have hinner := ih fun site hsite => hpath site (List.mem_cons_of_mem _ hsite)
    rw [hexec] at hinner
    exact hinner.trans (hopens.covers hexec)
  | @first α β w f s side path _ hf ih =>
    have hfirst := ih hpath
    rcases hexec : exec w s with ⟨fault | a, t⟩ <;> rw [hexec] at hfirst
    · rw [exec_bind_error hexec]
      exact hfirst
    · rw [exec_bind_ok hexec]
      exact hfirst.trans ((hf a).covers t)
  | next hexec _ ih =>
    rw [exec_bind_ok hexec]
    exact ih hpath
  | look _ ih => exact ih hpath
  | block _ ih => exact ⟨(ih hpath).status, (ih hpath).approximate⟩
  | attempt hexec _ ih =>
    have hcovers := ih hpath
    rw [hexec] at hcovers
    rw [exec_tryCatch_ok hexec]
    exact hcovers

/-- Work that gives a result gives it on the sheet it leaves. -/
theorem exists_exec_of_isOk {w : Work α} (h : (exec w s).1.isOk = true) :
    ∃ a, exec w s = (.ok a, (exec w s).2) := by
  rcases hexec : exec w s with ⟨fault | a, t⟩
  · rw [hexec] at h
    cases h
  · exact ⟨a, rfl⟩

/-- Where work that gives a result is followed by a step that changes nothing, there is nothing to catch. -/
theorem Draws.attempt_first {w : Work α} {f : α → Work β} {handle : Fault → Work β}
    (h : Draws w s path side) (hok : (exec w s).1.isOk = true) (hroutine : ∀ a, Routine (f a))
    (hf : ∀ a t, ∃ b, exec (f a) t = (.ok b, t)) : Draws (tryCatch (w >>= f) handle) s path side := by
  obtain ⟨a, ha⟩ := exists_exec_of_isOk hok
  obtain ⟨b, hb⟩ := hf a (exec w s).2
  exact .attempt ((exec_bind_ok ha).trans hb) (.first h hroutine)

end Work

open Work (Draws exec)

/-- What is reported while the body of a derivative or an integral is simplified is not lost in the
solution: if anything was rounded or estimated there the solution is approximate, and its status is at
least as severe as the one the body ended with. -/
theorem solve_covers_bodies {e result : Expr} {bindings : Bindings} {options : Options} {strict : Bool}
    {t side : Sheet} {path : List Site} (hsolve : solve e bindings options strict = .ok (result, t))
    (hside : Draws (Work.solveWith Expr.simplify) (Sheet.new e bindings options strict) path side)
    (hpath : ∀ site ∈ path, site = .body) :
    (side.approximate = true → t.approximate = true) ∧ side.status ≤ t.status := by
  have hcovers := hside.covers hpath
  unfold solve at hsolve
  rw [Sheet.solve_eq] at hsolve
  split at hsolve
  · rename_i hexec
    cases hsolve
    rw [hexec] at hcovers
    exact ⟨hcovers.approximate, hcovers.status⟩
  · cases hsolve

/-- What simplifying draws is drawn by a solution of an expression in which nothing is put in for symbols,
unless the solution has to be recovered. -/
theorem draws_solveWith {e : Expr} {s side : Sheet} {path : List Site}
    (hsubstitute : exec Work.substituteValues s = (.ok e, s))
    (hsimplify : (exec (Expr.simplify e) s).1.isOk = true) (h : Draws (Expr.simplify e) s path side) :
    Draws (Work.solveWith Expr.simplify) s path side := by
  have hreport (result : Expr) : Work.Routine (if result.hasCalculus
      then Work.report .partly "symbolic_calculus_remaining" >>= fun _ => pure result
      else pure result) :=
    .iteBind (.report _ _) fun _ => .pure _
  refine .next hsubstitute (.first (h.attempt_first hsimplify (fun result => ?_) fun result t => ?_) hreport)
  · split <;> exact .pure _
  · split <;> exact ⟨_, rfl⟩

/-- Options under which results of two digits are estimated. -/
def roughly : Options where
  magnitudeThreshold := some 1

/-- Six times a symbol. Under rough options the six is estimated to be ten. -/
def sixTimes (name : String) : Expr :=
  .prod [2, 3, .sym name]

/-- In `d/dx (2 * 3 * x)` the body is estimated, and so is the solution. -/
theorem solve_covers_bodies_derivative : ∃ result t side,
    solve (.deriv (sixTimes "x") [("x", 1)]) {} roughly true = .ok (result, t) ∧
      Draws (Work.solveWith Expr.simplify)
        (Sheet.new (.deriv (sixTimes "x") [("x", 1)]) {} roughly true) [.body] side ∧
      side.approximate = true ∧ side.status = .partly ∧
      t.approximate = true ∧ Status.partly ≤ t.status := by
  let start := Sheet.new (.deriv (sixTimes "x") [("x", 1)]) {} roughly true
  let side := (exec (Expr.simplifyAt 65535 (sixTimes "x")) (start.aside (sixTimes "x") {})).2
  obtain ⟨result, t, hsolve, -⟩ := exists_of_solves (p := fun _ _ => true)
    (show Solves (.deriv (sixTimes "x") [("x", 1)]) {} roughly true _ = true by decide +kernel)
  obtain ⟨inner, hinner⟩ : ∃ inner, exec (Expr.simplifyAt 65535 (sixTimes "x"))
      (start.aside (sixTimes "x") {}) = (.ok inner, side) :=
    Work.exists_exec_of_isOk (by decide +kernel)
  have hdraws : Draws (Work.solveWith Expr.simplify) start [.body] side := by
    refine draws_solveWith rfl (by decide +kernel) ?_
    refine .first (.here (.body 65535 ["x"] (sixTimes "x") start rfl rfl) hinner) fun inner => ?_
    refine (Simplify.differentiateBy_routine _ _).bind fun result => .ite ?_ ?_
    · refine (Work.Routine.report _ _).bind fun _ => ?_
      exact (Simplify.become_routine _ _).bind fun _ => .pure _
    · refine (Work.Routine.record _).bind fun _ => (Work.routine_wording ..).bind fun message => ?_
      exact (Work.Routine.change _).bind fun _ => Expr.simplifyAt_routine _ _
  have hside : side.approximate = true ∧ side.status = .partly := by
    decide +kernel
  have hcovers := solve_covers_bodies hsolve hdraws (by decide)
  exact ⟨result, t, side, hsolve, hdraws, hside.1, hside.2, hcovers.1 hside.1, hside.2 ▸ hcovers.2⟩

/-- `x ^ (1 / (2 * 3 * y))` comes out as `x ^ (1 / (10 * y))`, and nothing tells that this is an estimate: the
solution is exact although its exponent is not. -/
theorem solve_loses_exponent : ∃ result t side,
    solve (.pow (.sym "x") (.pow (sixTimes "y") Expr.minusOne)) {} roughly true = .ok (result, t) ∧
      Draws (Work.solveWith Expr.simplify)
        (Sheet.new (.pow (.sym "x") (.pow (sixTimes "y") Expr.minusOne)) {} roughly true)
        [.rootExponent] side ∧
      side.approximate = true ∧ side.status = .partly ∧
      t.approximate = false ∧ t.status = .exact ∧
      (result == .pow (.sym "x") (.pow (.prod [10, .sym "y"]) Expr.minusOne)) = true := by
  let exponent := Expr.pow (sixTimes "y") Expr.minusOne
  let start := Sheet.new (.pow (.sym "x") exponent) {} roughly true
  let side := (exec (Expr.simplifyAt 65535 exponent) (start.aside exponent {})).2
  obtain ⟨result, t, hsolve, houtcome⟩ := exists_of_solves (p := fun result t =>
      !t.approximate && (t.status == .exact) &&
        result == .pow (.sym "x") (.pow (.prod [10, .sym "y"]) Expr.minusOne))
    (show Solves (.pow (.sym "x") exponent) {} roughly true _ = true by decide +kernel)
  obtain ⟨inner, hinner⟩ : ∃ inner, exec (Expr.simplifyAt 65535 exponent)
      (start.aside exponent {}) = (.ok inner, side) :=
    Work.exists_exec_of_isOk (by decide +kernel)
  have hdraws : Draws (Work.solveWith Expr.simplify) start [.rootExponent] side := by
    refine draws_solveWith rfl (by decide +kernel) ?_
    refine .next (a := (.sym "x", exponent)) (t := start) rfl ?_
    exact Draws.here (.rootExponent 65535 (.sym "x") exponent start) hinner
  have hside : side.approximate = true ∧ side.status = .partly := by
    decide +kernel
  simp only [Bool.and_eq_true, Bool.not_eq_true', beq_iff_eq] at houtcome
  exact ⟨result, t, side, hsolve, hdraws, hside.1, hside.2, houtcome.1.1, houtcome.1.2, houtcome.2⟩

end Workings

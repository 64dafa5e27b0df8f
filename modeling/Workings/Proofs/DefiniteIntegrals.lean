import Workings.Proofs.Antiderivatives
import Workings.Proofs.Deepening
import Workings.Proofs.Routine
import Workings.Proofs.Simplifying
import Workings.Proofs.Simultaneous

/-!
# Definite integrals without an antiderivative

If what integration gives for the simplified integrand is itself an integral, a definite integral is not
evaluated: it stays in the result, with its integrand and its bounds simplified, and the solution is
partial (`solve_definite_unsolved`). An integral that is only a part of the antiderivative does not stop
the evaluation, and may cancel (`solve_definite_partly_solved`).
-/

namespace Workings

open Work (Routine Kept exec)

/-! ### Blocks keep their lengths -/

/-- The lengths of blocks are kept. -/
theorem Work.kept_lengths : Kept fun s t => t.blocks.map List.length = s.blocks.map List.length where
  refl _ := rfl
  trans hst htu := htu.trans hst
  change c s := by
    rw [exec_changeWith]
    split
    · show (s.blocks.map fun trees => trees.map (·.replace c.part c.result)).map List.length = _
      rw [List.map_map]
      exact List.map_congr_left fun trees _ => List.length_map _
    · split <;> rfl
  remark text pause s := by rw [Sheet.remark_eq]
  report status reason s := by rw [Sheet.report_eq]
  record event s := by rw [Sheet.record_eq]
  absorb side s := by
    cases h : side.reason with
    | none => simp only [Sheet.absorb, h]
    | some reason => simp only [Sheet.absorb, h, Sheet.report_eq]
  missing _ _ := rfl
  close trees s t h := by
    show (t.blocks.take s.blocks.length).map List.length = _
    rw [List.map_take, h, List.map_append, List.take_left' (List.length_map _)]

theorem Work.Routine.length_block {α : Type} {w : Work α} (h : Routine w) (s : Sheet) (id : Nat) :
    ((exec w s).2.block id).length = (s.block id).length := by
  have hlengths := congrArg (·[id]?) (h.keeps Work.kept_lengths s)
  simp only [List.getElem?_map] at hlengths
  simp only [Sheet.block, List.getD_eq_getElem?_getD]
  cases h : s.blocks[id]? with
  | none =>
    rw [h] at hlengths
    rw [Option.map_eq_none_iff.1 hlengths]
  | some trees =>
    rw [h] at hlengths
    obtain ⟨trees', htrees', hlength⟩ := Option.map_eq_some_iff.1 hlengths
    rw [htrees']
    exact hlength

namespace Simplify

variable {simplify : Simplifier} {s t : Sheet}

theorem length_blockFrom (hs : ∀ e, Routine (simplify e)) {id index count : Nat} {es : List Expr}
    (hlength : index + count = (s.block id).length)
    (h : exec (blockFrom simplify id index count) s = (.ok es, t)) : es.length = count := by
  induction count generalizing s index es with
  | zero =>
    cases h
    rfl
  | succ count ih =>
    obtain ⟨tree, htree⟩ : ∃ tree, s.blockItem? id index = some tree :=
      ⟨_, List.getElem?_eq_getElem (by omega)⟩
    rw [blockFrom, Work.exec_get_bind, htree] at h
    dsimp only at h
    have hkept := (hs tree).length_block s id
    obtain ⟨first, u, hfirst, h⟩ := Work.of_exec_bind_ok h
    obtain ⟨rest, v, hrest, h⟩ := Work.of_exec_bind_ok h
    cases h
    rw [hfirst] at hkept
    change (u.block id).length = _ at hkept
    rw [List.length_cons, ih (by omega) hrest]

/-- As many siblings come out as go in. -/
theorem length_siblings (hs : ∀ e, Routine (simplify e)) {trees es : List Expr}
    (h : exec (siblings simplify trees) s = (.ok es, t)) : es.length = trees.length := by
  have hblock := block_append s trees
  rw [siblings, Work.exec_withBlock, block, Work.exec_get_bind] at h
  generalize hopened : ({ s with blocks := s.blocks ++ [trees] } : Sheet) = opened at h hblock
  have hresult := congrArg Prod.fst h
  rcases hexec : exec (blockFrom simplify s.blocks.length 0 (opened.block s.blocks.length).length)
    opened with ⟨result, u⟩
  dsimp only at hresult
  rw [hexec] at hresult
  obtain rfl : result = .ok es := hresult
  rw [length_blockFrom hs (Nat.zero_add _) hexec, hblock]

/-- Both bounds of a definite integral come out. -/
theorem integralBounds_cases (hs : ∀ e, Routine (simplify e)) {a b : Expr}
    {bounds : Option Expr × Option Expr}
    (h : exec (integralBounds simplify (some a) (some b)) s = (.ok bounds, t)) :
    ∃ lower upper, bounds = (some lower, some upper) := by
  unfold integralBounds at h
  obtain ⟨simplified, u, hsiblings, h⟩ := Work.of_exec_bind_ok h
  cases h
  obtain ⟨lower, upper, rfl⟩ := List.length_eq_two.1 (length_siblings hs hsiblings)
  exact ⟨lower, upper, rfl⟩

end Simplify

/-! ### Work without calculus -/

/-- Expressions without calculus, in any words. -/
def Likeness.withoutCalculus : Likeness where
  symbol _ := True
  calculus := False
  whole := False.elim
  worded := False

theorem covers_withoutCalculus {e : Expr} (he : e.hasCalculus = false) :
    Likeness.withoutCalculus.Covers e := by
  induction e using Expr.induction_on_parts with
  | h e ih =>
    refine .intro ?_ fun part hpart => ih part hpart (Expr.hasCalculus_of_mem_children he hpart)
    cases e with
    | deriv _ _ | integral _ _ _ _ => cases he
    | num _ | sym _ | sum _ | prod _ | pow _ _ | call _ _ _ _ => trivial

/-- A sheet on which nothing has been recorded, and no symbol is bound. -/
structure Sheet.Unrecorded (s : Sheet) : Prop where
  values : s.bindings.values = []
  blocks : s.blocks = []
  events : s.events = #[]

theorem Sheet.Unrecorded.like {s : Sheet} (h : s.Unrecorded) :
    s.Like .withoutCalculus s.log s.log s where
  tree := rfl
  blocks := rfl
  strict := rfl
  skipped := rfl
  approximate := rfl
  status := rfl
  reason := rfl
  events := rfl
  tags := rfl
  bindings :=
    { bySignature := rfl
      byName := rfl
      value := fun _ _ => rfl
      covers := fun name _ value hvalue => by
        rw [Bindings.value?, h.values] at hvalue
        cases hvalue
      whole := False.elim }
  options := ⟨⟨s.presentation, rfl⟩, False.elim⟩
  words := False.elim
  coversBlocks := fun trees htrees => by
    rw [h.blocks] at htrees
    cases htrees
  unrecorded := fun _ => h.events
  log := .refl False.elim

/-- Nothing is recorded in work without calculus. -/
theorem Work.Parallel.events_eq {α : Type} {w : Work α} {post : α → α → Prop}
    (h : Parallel .withoutCalculus post w w) {s : Sheet} (hs : s.Unrecorded) :
    (exec w s).2.events = #[] :=
  (h _ _ _ _ hs.like).like.unrecorded id

theorem Simplify.events_integralBounds {a b : Expr} (ha : a.hasCalculus = false)
    (hb : b.hasCalculus = false) (depth : Nat) {s : Sheet} (hs : s.Unrecorded) :
    (exec (integralBounds (Expr.simplifyAt depth) (some a) (some b)) s).2.events = #[] := by
  have hbounds : ∀ e ∈ (some a).toList ++ (some b).toList, Likeness.withoutCalculus.Covers e :=
    Vocabulary.covers_pair (covers_withoutCalculus ha) (covers_withoutCalculus hb)
  exact (integralBounds_parallel (fun _ => Expr.simplifyAt_parallel depth) hbounds).events_eq hs

/-! ### An integral, step by step -/

/-- The sheet of an integral once its integrand was simplified on the side. -/
def Sheet.takeOver (s side : Sheet) : Sheet :=
  { s with missing := side.missing }.absorb side

theorem Sheet.Unrecorded.takeOver {s side : Sheet} (hs : s.Unrecorded) (hside : side.events = #[]) :
    (s.takeOver side).Unrecorded := by
  unfold Sheet.takeOver absorb
  have hevents : s.events ++ side.events = #[] := by rw [hs.events, hside]; rfl
  cases side.reason with
  | none => exact ⟨hs.values, hs.blocks, hevents⟩
  | some reason =>
    simp only [report_eq]
    exact ⟨hs.values, hs.blocks, hevents⟩

namespace Simplify

variable {simplify : Simplifier} {s t : Sheet}

/-- Where no symbol is bound the integrand is simplified as it is. -/
theorem exec_body (bound : List String) (e : Expr) (hs : s.bindings.values = []) :
    exec (body simplify bound e) s = match exec (simplify e) (s.aside e s.bindings) with
      | (.ok inner, side) => (.ok inner, s.takeOver side)
      | (.error fault, side) => (.error fault, { s with missing := side.missing }) := by
  have hwithout : s.bindings.without bound = s.bindings := by
    unfold Bindings.without
    rw [hs]
    exact congrArg (fun values => { s.bindings with values := values }) hs.symm
  have hself : s.bindings.replaceSymbols e = e := by
    rw [Bindings.replaceSymbols, hs, Expr.withValues_nil]
  rw [body, Work.exec_get_bind]
  dsimp only
  rw [hwithout, hself]
  rcases h : exec (simplify e) (s.aside e s.bindings) with ⟨fault | inner, side⟩
  · refine Work.exec_bind_error ?_
    rw [Work.exec_onTheSide, h]
    rfl
  · refine (Work.exec_bind_ok (a := (inner, side)) (t := { s with missing := side.missing }) ?_).trans rfl
    rw [Work.exec_onTheSide, h]
    rfl

/-- There is a rule of integration for every shape. -/
theorem exec_integrate (x : String) (e : Expr) (s : Sheet) :
    ∃ event, exec (Work.integrate x e) s = (.ok (e.integrate x), s.record event) ∧
      event.rule ≠ "integral_definite_evaluated" := by
  cases e with
  | num _ | sym _ | sum _ | prod _ | pow _ _ | call _ _ _ _ | deriv _ _ | integral _ _ _ _ =>
    exact ⟨_, rfl, by simp [Rule.event, Rule.integral]⟩

theorem exec_become_ok {current result : Expr} (h : exec (become current result) s = (.ok (), t)) :
    t.events = s.events ∧ t.status = s.status ∧ t.reason = s.reason := by
  unfold become at h
  split at h
  · rw [Work.change, Work.exec_changeWith] at h
    split at h
    · cases h
      exact ⟨rfl, rfl, rfl⟩
    · split at h
      · cases h
      · cases h
        exact ⟨rfl, rfl, rfl⟩
  · cases h
    exact ⟨rfl, rfl, rfl⟩

theorem exec_unsolvedIntegral {reason : String} {inTree current result : Expr}
    (h : exec (unsolvedIntegral reason inTree current) s = (.ok result, t)) :
    result = current ∧ t.events = s.events ∧ t.status = (s.report .partly reason).status ∧
      t.reason = (s.report .partly reason).reason := by
  have hevents : (s.report .partly reason).events = s.events := by rw [Sheet.report_eq]
  rw [unsolvedIntegral, Work.report, Work.exec_bind_ok (Work.exec_modify _ s)] at h
  obtain ⟨⟨⟩, u, hbecome, h⟩ := Work.of_exec_bind_ok h
  cases h
  obtain ⟨hu, hstatus, hreason⟩ := exec_become_ok hbecome
  exact ⟨rfl, hu.trans hevents, hstatus, hreason⟩

/-- A definite integral whose antiderivative is an integral: a bound ends the work, or it is left as it
is. -/
theorem exec_integral_unsolved (hs : ∀ e, Routine (simplify e)) (hvalues : s.bindings.values = [])
    {f inner a b : Expr} {x : String} {side : Sheet}
    (hinner : exec (simplify f) (s.aside f s.bindings) = (.ok inner, side))
    (hunsolved : (inner.integrate x).shape = .integral) :
    (∃ fault before, exec (integralBounds simplify (some a) (some b)) (s.takeOver side) =
        (.error fault, before) ∧
      exec (integral simplify f x (some a) (some b)) s = (.error fault, before)) ∨
    ∃ lower upper before event, exec (integralBounds simplify (some a) (some b)) (s.takeOver side) =
        (.ok (some lower, some upper), before) ∧
      event.rule ≠ "integral_definite_evaluated" ∧
      exec (integral simplify f x (some a) (some b)) s =
        exec (unsolvedIntegral "definite_integral_unsolved_antiderivative"
          (.integral f x (some lower) (some upper)) (.integral inner x (some lower) (some upper)))
          (before.record event) := by
  have hbody : exec (body simplify [x] f) s = (.ok inner, s.takeOver side) := by
    rw [exec_body _ _ hvalues, hinner]
  rw [integral, Work.exec_bind_ok hbody]
  rcases hbounds : exec (integralBounds simplify (some a) (some b)) (s.takeOver side)
    with ⟨fault | bounds, before⟩
  · exact .inl ⟨fault, before, rfl, Work.exec_bind_error hbounds⟩
  · obtain ⟨lower, upper, rfl⟩ := integralBounds_cases hs hbounds
    obtain ⟨event, hintegrate, hrule⟩ := exec_integrate x inner before
    refine .inr ⟨lower, upper, before, event, rfl, hrule, ?_⟩
    rw [Work.exec_bind_ok hbounds]
    dsimp only
    rw [Work.exec_bind_ok hintegrate, hunsolved]
    rfl

end Simplify

/-! ### The end of a solution -/

namespace Sheet

/-- Once something is partial, the first reason is kept. -/
theorem report_after {s t : Sheet} {reason : String}
    (hstatus : t.status = (s.report .partly reason).status)
    (hreason : t.reason = (s.report .partly reason).reason) (later : String) :
    Status.partly.severity ≤ (t.report .partly later).status.severity ∧
      (t.report .partly later).reason = (s.report .partly reason).reason := by
  rw [report_eq] at hstatus hreason
  rw [report_eq, report_eq]
  dsimp only at hstatus hreason ⊢
  rw [hstatus, hreason]
  cases s.status <;> cases s.reason <;> simp [Status.severity]

end Sheet

namespace Work

variable {simplify : Simplifier} {e result : Expr} {s t u : Sheet}

theorem exec_settle_ok (h : exec (simplify e) s = (.ok result, t)) (hresult : result.isNumber = false)
    (hcalculus : result.hasCalculus = true) :
    exec (settle simplify e) s = (.ok result, t.report .partly "symbolic_calculus_remaining") := by
  unfold settle
  cases result with
  | num n => cases hresult
  | sym _ | sum _ | prod _ | pow _ _ | call _ _ _ _ | deriv _ _ | integral _ _ _ _ =>
    rw [exec_bind_ok (exec_tryCatch_ok ((exec_bind_ok h).trans rfl)), hcalculus]
    rfl

/-- A solution that ends in spite of a fault has met a value outside of its domain. -/
theorem settle_fault {fault : Fault} (h : exec (simplify e) s = (.error fault, t))
    (hsettle : exec (settle simplify e) s = (.ok result, u)) :
    (∃ reason expression, fault = .undefined reason expression) ∧ u.status = .unsolved ∧
      u.events = t.events := by
  have hreport (v : Sheet) (reason : String) : (v.report .unsolved reason).status = .unsolved := by
    rw [Sheet.report_eq]
    cases v.status <;> rfl
  unfold settle at hsettle
  cases fault with
  | absent part tree =>
    rw [exec_bind_error ((exec_tryCatch_error (exec_bind_error h)).trans rfl)] at hsettle
    cases hsettle
  | exhausted =>
    rw [exec_bind_error ((exec_tryCatch_error (exec_bind_error h)).trans rfl)] at hsettle
    cases hsettle
  | undefined reason expression =>
    let reported := t.report .unsolved "math_domain_error"
    obtain ⟨text, missing, hmessage⟩ := answers_undefinedMessage expression reported
    let written := ({ reported with missing := missing } : Sheet).remark text false
    have hrecover : exec (recover (.undefined reason expression)) t = (.ok written.tree, written) := by
      rw [recover, report, exec_bind_ok (exec_modify _ t), exec_bind_ok hmessage]
      rfl
    have hwritten : written.status = .unsolved ∧ written.events = t.events := by
      simp only [written, Sheet.remark_eq]
      refine ⟨hreport t _, ?_⟩
      simp only [reported, Sheet.report_eq]
    refine ⟨⟨reason, expression, rfl⟩, ?_⟩
    rw [exec_bind_ok ((exec_tryCatch_error (exec_bind_error h)).trans hrecover)] at hsettle
    generalize written = v at hsettle hwritten
    split at hsettle
    · cases hsettle
      dsimp only
      rw [Sheet.report_eq, hwritten.1]
      exact ⟨rfl, hwritten.2⟩
    · cases hsettle
      exact hwritten

end Work

/-- The integrand of an integral is simplified one level deeper than the integral, which makes no
difference if the integral is worked out. -/
theorem exec_integrand {f inner result : Expr} {x : String} {lower upper : Option Expr}
    {s side u : Sheet} (hvalues : s.bindings.values = [])
    (hinner : exec f.simplify (s.aside f s.bindings) = (.ok inner, side))
    (hsettle : exec (Work.settle Expr.simplify (.integral f x lower upper)) s = (.ok result, u)) :
    exec (Expr.simplifyAt (Expr.maxDepth - 1) f) (s.aside f s.bindings) = (.ok inner, side) := by
  have hdeepens := Expr.simplifyAt_deepens (Nat.sub_le Expr.maxDepth 1) f (s.aside f s.bindings)
  refine (hdeepens.resolve_left fun hexhausted => ?_).trans hinner
  rcases hexec : exec (Expr.simplifyAt (Expr.maxDepth - 1) f) (s.aside f s.bindings) with ⟨r, t⟩
  rw [hexec] at hexhausted
  obtain rfl : r = .error .exhausted := hexhausted
  have hbody : exec (Simplify.body (Expr.simplifyAt (Expr.maxDepth - 1)) [x] f) s =
      (.error .exhausted, { s with missing := t.missing }) := by
    rw [Simplify.exec_body _ _ hvalues, hexec]
  have hintegral : exec (Expr.simplify (.integral f x lower upper)) s = (.error .exhausted, _) :=
    Work.exec_bind_error hbody
  obtain ⟨⟨reason, expression, hfault⟩, -⟩ := Work.settle_fault hintegral hsettle
  cases hfault

/-- A solution that leaves an integral as it is. -/
theorem settle_unsolvedIntegral {e inTree current result : Expr} {reason : String}
    {s before u : Sheet} (hcurrent : current.shape = .integral)
    (hwork : exec e.simplify s = exec (Simplify.unsolvedIntegral reason inTree current) before)
    (hsettle : exec (Work.settle Expr.simplify e) s = (.ok result, u)) :
    result = current ∧ u.events = before.events ∧ Status.partly.severity ≤ u.status.severity ∧
      u.reason = (before.report .partly reason).reason := by
  have hdefined : Work.Recovered (Simplify.unsolvedIntegral reason inTree current) := by
    refine (Work.recovered_modify _).bind fun _ => ?_
    refine Work.Recovered.bind ?_ fun _ => Work.recovered_pure _
    unfold Simplify.become
    split
    · exact Work.recovered_changeWith _
    · exact Work.recovered_pure _
  rcases hleft : exec (Simplify.unsolvedIntegral reason inTree current) before
    with ⟨fault | r, t⟩
  · obtain ⟨⟨message, expression, rfl⟩, -⟩ := Work.settle_fault (hwork.trans hleft) hsettle
    exact absurd (congrArg Prod.fst hleft) (hdefined before message expression)
  · obtain ⟨rfl, hevents, hstatus, hreason⟩ := Simplify.exec_unsolvedIntegral hleft
    obtain ⟨hpartly, hkept⟩ := Sheet.report_after hstatus hreason "symbolic_calculus_remaining"
    have hend := Work.exec_settle_ok (hwork.trans hleft) (by
      cases r with
      | integral _ _ _ _ => rfl
      | _ => cases hcurrent) (by
      cases r with
      | integral _ _ _ _ => rfl
      | _ => cases hcurrent)
    rw [hend] at hsettle
    cases hsettle
    refine ⟨rfl, ?_, hpartly, hkept⟩
    rw [Sheet.report_eq]
    exact hevents

/-- If the antiderivative of the simplified integrand is itself an integral, the definite integral is not
evaluated and the solution is partial. The result is the integral with its integrand and its bounds
simplified, and the reason is the missing antiderivative, unless something partial was reported before
or a bound has no value. -/
theorem solve_definite_unsolved {f a b inner result : Expr} {x : String} {bindings : Bindings}
    {options : Options} {strict : Bool} {side sheet : Sheet} (hvalues : bindings.values = [])
    (hf : f.hasCalculus = false) (ha : a.hasCalculus = false) (hb : b.hasCalculus = false)
    (hinner : exec f.simplify (.new f bindings options false) = (.ok inner, side))
    (hunsolved : (inner.integrate x).shape = .integral)
    (hsolve : solve (.integral f x (some a) (some b)) bindings options strict = .ok (result, sheet)) :
    (∀ event ∈ sheet.events, event.rule ≠ "integral_definite_evaluated") ∧
      Status.partly.severity ≤ sheet.status.severity ∧
      ((∃ fault before,
          exec (Simplify.integralBounds Expr.simplify (some a) (some b))
            ((Sheet.new (.integral f x (some a) (some b)) bindings options strict).takeOver side) =
              (.error fault, before) ∧
          sheet.status = .unsolved) ∨
        ∃ lower upper before,
          exec (Simplify.integralBounds Expr.simplify (some a) (some b))
            ((Sheet.new (.integral f x (some a) (some b)) bindings options strict).takeOver side) =
              (.ok (some lower, some upper), before) ∧
          result = .integral inner x (some lower) (some upper) ∧
          sheet.reason = (before.report .partly "definite_integral_unsolved_antiderivative").reason) := by
  have hs : (Sheet.new (.integral f x (some a) (some b)) bindings options strict).Unrecorded :=
    ⟨hvalues, rfl, rfl⟩
  have hself : bindings.replaceSymbols (.integral f x (some a) (some b)) =
      .integral f x (some a) (some b) := by
    rw [Bindings.replaceSymbols, hvalues, Expr.withValues_nil]
  rw [solve, Sheet.solve_eq, Work.solveWith_eq,
    Work.exec_bind_ok (exec_substituteValues_self options strict hself)] at hsolve
  -- The integrand is simplified on a sheet on the side.
  have hinner : exec f.simplify (Sheet.aside (.new (.integral f x (some a) (some b)) bindings options
      strict) f (Sheet.new (.integral f x (some a) (some b)) bindings options strict).bindings) =
    (.ok inner, side) := hinner
  generalize Sheet.new (.integral f x (some a) (some b)) bindings options strict = s at *
  rcases hsettle : exec (Work.settle Expr.simplify (.integral f x (some a) (some b))) s
    with ⟨fault | r, u⟩ <;> rw [hsettle] at hsolve <;> cases hsolve
  have hintegrand := exec_integrand hs.values hinner hsettle
  -- Nothing is recorded for the integrand and the bounds.
  have hside := (Expr.simplify_parallel (covers_withoutCalculus hf)).events_eq
    (s := s.aside f s.bindings) ⟨hs.values, rfl, rfl⟩
  rw [hinner] at hside
  have hbefore := Simplify.events_integralBounds ha hb (Expr.maxDepth - 1) (hs.takeOver hside)
  have hdeepens := Simplify.integralBounds_deepens (Expr.simplifyAt_deepens (Nat.sub_le Expr.maxDepth 1))
    (some a) (some b) (s.takeOver side)
  rcases Simplify.exec_integral_unsolved (a := a) (b := b) (Expr.simplifyAt_routine _) hs.values
    hintegrand hunsolved with
    ⟨fault, before, hexec, hwork⟩ | ⟨lower, upper, before, event, hexec, hrule, hwork⟩
  · obtain ⟨⟨reason, expression, rfl⟩, hstatus, hevents⟩ := Work.settle_fault hwork hsettle
    rw [hexec] at hbefore hdeepens
    refine ⟨fun event hevent => ?_, by rw [hstatus]; decide,
      .inl ⟨_, before, (hdeepens.resolve_left fun h => by cases h).symm, hstatus⟩⟩
    rw [hevents, hbefore] at hevent
    exact absurd hevent (Array.not_mem_empty event)
  · have hleft : exec (Expr.simplify (.integral f x (some a) (some b))) s = _ := hwork
    obtain ⟨hresult, hevents, hpartly, hreason⟩ := settle_unsolvedIntegral rfl hleft hsettle
    rw [hexec] at hbefore hdeepens
    refine ⟨fun recorded hrecorded => ?_, hpartly,
      .inr ⟨lower, upper, before, (hdeepens.resolve_left fun h => by cases h).symm, hresult, ?_⟩⟩
    · rw [hevents, Sheet.record_eq, hbefore] at hrecorded
      rw [Array.mem_singleton.1 hrecorded]
      exact hrule
    · rw [hreason, Sheet.report_eq, Sheet.report_eq, Sheet.record_eq]

/-- The integral of `exp (x ^ 2)` from `0` to `1` has no antiderivative, and so it is not evaluated. -/
theorem solve_definite_unsolved_exp :
    ∃ inner side result sheet,
      exec (Expr.call1 "exp" (.pow (.sym "x") 2)).simplify
          (.new (.call1 "exp" (.pow (.sym "x") 2)) {} {} false) = (.ok inner, side) ∧
        (inner.integrate "x").shape = .integral ∧
        solve (.integral (.call1 "exp" (.pow (.sym "x") 2)) "x" (some 0) (some 1)) {} {} true =
          .ok (result, sheet) ∧
        (∀ event ∈ sheet.events, event.rule ≠ "integral_definite_evaluated") ∧
        Status.partly.severity ≤ sheet.status.severity := by
  have hunsolved : ((exec (Expr.call1 "exp" (.pow (.sym "x") 2)).simplify
      (.new (.call1 "exp" (.pow (.sym "x") 2)) {} {} false)).1.toOption.any fun inner =>
        (inner.integrate "x").shape == .integral) = true := by
    decide +kernel
  rcases hinner : exec (Expr.call1 "exp" (.pow (.sym "x") 2)).simplify
    (.new (.call1 "exp" (.pow (.sym "x") 2)) {} {} false) with ⟨fault | inner, side⟩ <;>
    rw [hinner] at hunsolved
  · cases hunsolved
  · have hshape : (inner.integrate "x").shape = .integral := eq_of_beq hunsolved
    obtain ⟨result, sheet, hsolve, -⟩ := exists_of_solves (p := fun _ _ => true)
      (show Solves (.integral (.call1 "exp" (.pow (.sym "x") 2)) "x" (some 0) (some 1)) {} {} true _ = true
        by decide +kernel)
    obtain ⟨hevents, hstatus, -⟩ :=
      solve_definite_unsolved rfl (by decide) (by decide) (by decide) hinner hshape hsolve
    exact ⟨inner, side, result, sheet, rfl, hshape, hsolve, hevents, hstatus⟩

/-- The integral of `3 + exp (x ^ 2)` from `0` to `1` is worked out to `3`. An integral is left in the
antiderivative, which is the same at both bounds: its variable is bound, and nothing is put in for it. -/
theorem solve_definite_partly_solved :
    (∃ inner side,
      exec (Expr.sum [3, .call1 "exp" (.pow (.sym "x") 2)]).simplify
          (.new (.sum [3, .call1 "exp" (.pow (.sym "x") 2)]) {} {} false) = (.ok inner, side) ∧
        (inner.integrate "x" == .sum [.prod [3, .sym "x"],
          .integral (.call1 "exp" (.pow (.sym "x") 2)) "x" none none]) = true) ∧
      ∃ result sheet,
        solve (.integral (.sum [3, .call1 "exp" (.pow (.sym "x") 2)]) "x" (some 0) (some 1)) {} {} true =
            .ok (result, sheet) ∧
          (result == 3) = true ∧
          (∃ event ∈ sheet.events, event.rule = "integral_definite_evaluated") ∧
          sheet.reason ≠ some "definite_integral_unsolved_antiderivative" := by
  constructor
  · have hpartly : ((exec (Expr.sum [3, .call1 "exp" (.pow (.sym "x") 2)]).simplify
        (.new (.sum [3, .call1 "exp" (.pow (.sym "x") 2)]) {} {} false)).1.toOption.any fun inner =>
          inner.integrate "x" == .sum [.prod [3, .sym "x"],
            .integral (.call1 "exp" (.pow (.sym "x") 2)) "x" none none]) = true := by
      decide +kernel
    rcases hinner : exec (Expr.sum [3, .call1 "exp" (.pow (.sym "x") 2)]).simplify
      (.new (.sum [3, .call1 "exp" (.pow (.sym "x") 2)]) {} {} false) with ⟨fault | inner, side⟩ <;>
      rw [hinner] at hpartly
    · cases hpartly
    · exact ⟨inner, side, rfl, hpartly⟩
  · have hsolves : Solves (.integral (.sum [3, .call1 "exp" (.pow (.sym "x") 2)]) "x" (some 0) (some 1))
        {} {} true (fun result sheet => result == 3 &&
          sheet.events.any (·.rule == "integral_definite_evaluated") &&
          sheet.reason != some "definite_integral_unsolved_antiderivative") = true := by
      decide +kernel
    obtain ⟨result, sheet, hsolve, h⟩ := exists_of_solves hsolves
    obtain ⟨hboth, hreason⟩ := Bool.and_eq_true_iff.1 h
    obtain ⟨hresult, hevaluated⟩ := Bool.and_eq_true_iff.1 hboth
    obtain ⟨i, hi, hrule⟩ := Array.any_eq_true.1 hevaluated
    exact ⟨result, sheet, hsolve, hresult, ⟨_, Array.getElem_mem hi, eq_of_beq hrule⟩,
      bne_iff_ne.1 hreason⟩

end Workings

import Workings.Proofs.Equality
import Workings.Proofs.Lockstep

/-!
# Putting in the values of symbols first

To solve an expression with values for its symbols, or to put the values in and solve what comes of it
without any, is the same (`solve_replaceSymbols`): once the values are in, no bound symbol comes up again.
The log of the first solution is that of the second one behind the step that puts the values in. This is
about expressions without calculus, because the variables of derivatives and integrals keep their names
where values are put in, and about values that do not mention bound symbols themselves.
-/

namespace Workings

namespace Expr

/-! ### The whole tree as a part -/

theorem isWhole_within_self (e : Expr) : (Target.within e e).isWhole e = true := by
  unfold Target.isWhole
  rw [(Target.within_eq e e).1, beq_refl, Bool.true_or]

theorem has_self (e : Expr) : e.has e = true := by
  have hwhole := e.isWhole_within_self
  unfold has occurrences
  generalize Target.within e e = target at hwhole
  cases e <;> simp [Target.count, hwhole]

theorem replace_self (e value : Expr) : e.replace e value = value := by
  refine Replacement.apply_of_whole? (r := ⟨Target.within e e, value, value.neg⟩) ?_
  rw [Replacement.whole?, (Target.within_eq e e).1, if_pos (beq_refl e)]

end Expr

/-! ### Expressions without the bound symbols -/

/-- The expressions without calculus in which no symbol is bound. -/
def Vocabulary.unbound (bindings : Bindings) : Vocabulary where
  symbol name := bindings.value? name = none
  calculus := False
  whole := False.elim

namespace Vocabulary

variable {bindings : Bindings} {e : Expr}

theorem covers_sym {v : Vocabulary} {name : String} (h : v.symbol name) : v.Covers (.sym name) :=
  .intro h fun _ hpart => nomatch hpart

/-- An expression without calculus that mentions no bound symbol. -/
theorem unbound_covers (he : e.hasCalculus = false)
    (h : ∀ name, (bindings.value? name).isSome → e.mentions name = false) :
    (unbound bindings).Covers e := by
  induction e using Expr.induction_on_parts with
  | h e ih =>
    refine .intro ?_ fun part hpart => ih part hpart (Expr.hasCalculus_of_mem_children he hpart)
      fun name hname => Expr.mentions_of_mem_children he (h name hname) hpart
    cases e with
    | sym name =>
      refine Option.not_isSome_iff_eq_none.1 fun hname => ?_
      have habsent := h name hname
      rw [Expr.mentions, beq_self_eq_true] at habsent
      cases habsent
    | deriv _ _ | integral _ _ _ _ => cases he
    | num _ | sum _ | prod _ | pow _ _ | call _ _ _ _ => trivial

/-- Once the values are in, no bound symbol is left. -/
theorem unbound_covers_replaceSymbols
    (hvalues : ∀ name value, bindings.value? name = some value → (unbound bindings).Covers value)
    (he : e.hasCalculus = false) : (unbound bindings).Covers (bindings.replaceSymbols e) := by
  unfold Bindings.replaceSymbols
  induction e using Expr.induction_on_parts with
  | h e ih =>
    have hall {es : List Expr} (hes : ∀ part ∈ es, part ∈ e.children) :
        ∀ e' ∈ Expr.allWithValues bindings.values es, (unbound bindings).Covers e' := by
      rw [Expr.allWithValues_eq_map]
      intro e' he'
      obtain ⟨part, hpart, rfl⟩ := List.mem_map.1 he'
      exact ih part (hes part hpart) (Expr.hasCalculus_of_mem_children he (hes part hpart))
    have hpart {part : Expr} (hpart : part ∈ e.children) :=
      ih part hpart (Expr.hasCalculus_of_mem_children he hpart)
    cases e with
    | num n => exact covers_num n
    | sym name =>
      rw [Expr.withValues]
      cases hvalue : bindings.values.lookup name with
      | none => exact covers_sym hvalue
      | some value => exact hvalues name value hvalue
    | sum terms => exact covers_sum (hall fun _ h => h)
    | prod factors => exact covers_prod (hall fun _ h => h)
    | pow base exponent =>
      exact covers_pow (hpart (by simp [Expr.children])) (hpart (by simp [Expr.children]))
    | call f functional subscript superscript =>
      exact covers_call (hall (by simp +contextual [Expr.children]))
        (hall (by simp +contextual [Expr.children])) (hall (by simp +contextual [Expr.children]))
    | deriv _ _ | integral _ _ _ _ => cases he

/-- Values of other symbols than those of an expression are not put in. -/
theorem Covers.withValues_eq {v : Vocabulary} (h : v.Covers e) (hcalculus : ¬ v.calculus)
    {values : List (String × Expr)} (hvalues : ∀ name, v.symbol name → values.lookup name = none) :
    e.withValues values = e := by
  induction h with
  | @intro e here _ ih =>
    have hall (es : List Expr) (hes : ∀ part ∈ es, part ∈ e.children) :
        Expr.allWithValues values es = es := by
      rw [Expr.allWithValues_eq_map]
      exact (List.map_congr_left fun part hpart => ih part (hes part hpart)).trans (List.map_id es)
    cases e with
    | num n => rfl
    | sym name => rw [Expr.withValues, hvalues name here, Option.getD_none]
    | sum terms => rw [Expr.withValues, hall terms fun _ h => h]
    | prod factors => rw [Expr.withValues, hall factors fun _ h => h]
    | pow base exponent =>
      rw [Expr.withValues, ih base (by simp [Expr.children]), ih exponent (by simp [Expr.children])]
    | call f functional subscript superscript =>
      rw [Expr.withValues, hall functional (by simp +contextual [Expr.children]),
        hall subscript (by simp +contextual [Expr.children]),
        hall superscript (by simp +contextual [Expr.children])]
    | deriv _ _ | integral _ _ _ _ => exact (hcalculus here).elim

end Vocabulary

/-! ### The step that puts the values in -/

namespace Sheet

/-- The message on the values that are put in. -/
def substitutionMessage (s : Sheet) : Work String := do
  let listed ← Work.joinValues (s.bindings.values.map fun (name, value) =>
    "$" ++ name ++ " = " ++ s.write value ++ "$")
  Work.wording "substitution_intro"
    ("Substitute the given values: " ++ listed ++ ".")
    ("Substitute values: " ++ listed ++ ".")
    [("substitutions", listed)]

/-- The text on the values that are put in, as it is written down. -/
def substitutionText? (s : Sheet) : Option String :=
  (Work.exec s.substitutionMessage s).1.toOption.map s.phrasing.restate

theorem answers_substitutionMessage (s : Sheet) : Work.Answers s.substitutionMessage :=
  (Work.answers_joinValues _).bind fun _ => Work.answers_wording _ _ _ _

end Sheet

theorem Work.substituteValues_eq : substituteValues = (do
    let sheet ← get
    let substituted := sheet.bindings.replaceSymbols sheet.origin
    if !(substituted == sheet.origin) then
      remark (← sheet.substitutionMessage)
      change sheet.origin substituted
    return substituted) := by
  unfold substituteValues Sheet.substitutionMessage
  simp only [bind_assoc]

/-- A change of the whole tree to another expression is written down as it is. -/
theorem Work.exec_change_whole {s : Sheet} {value : Expr} (hne : (value == s.tree) = false) :
    exec (change s.tree value) s = (.ok (), { s with
      tree := value
      blocks := s.blocks.map fun trees => trees.map (·.replace s.tree value)
      log := s.log.push (.step ⟨s.tree, value, s.tree, value, none, false⟩) }) := by
  have hflag : s.flag false = s := by
    rw [Sheet.flag, Bool.or_false]
  have hstep : s.stepFor ⟨s.tree, value, none, false⟩ = ⟨s.tree, value, s.tree, value, none, false⟩ := by
    unfold Sheet.stepFor
    rw [s.tree.replace_self value]
    rfl
  have hchanges : Step.changes ⟨s.tree, value, s.tree, value, none, false⟩ = true := by
    rw [Step.changes, hne]
    rfl
  unfold change
  rw [exec_changeWith, if_pos s.tree.has_self, hflag]
  simp only [Sheet.accept, hstep, hchanges, Bool.or_true, if_true]

/-- Sheets with the same words on them, on which no bound symbol occurs. -/
def Likeness.unbound (bindings : Bindings) : Likeness where
  toVocabulary := .unbound bindings
  worded := True

/-- Where no bound symbol occurs, values do not matter. -/
theorem Likeness.SameBindings.unbound (bindings : Bindings) :
    (Likeness.unbound bindings).SameBindings bindings { bindings with values := [] } where
  bySignature := rfl
  byName := rfl
  value _ hname := hname
  covers name hname value hvalue := by
    have hnone : bindings.value? name = none := hname
    cases hnone.symm.trans hvalue
  whole := False.elim

section

variable {e : Expr} {bindings : Bindings} (options : Options) (strict : Bool)

/-- The sheet on which the values have been put in. -/
def Sheet.substituted (e : Expr) (bindings : Bindings) (options : Options) (strict : Bool)
    (text : String) (missing : Array String) : Sheet :=
  { Sheet.new e bindings options strict with
    tree := bindings.replaceSymbols e
    log := #[.step (.opening e), .remark text false,
      .step ⟨e, bindings.replaceSymbols e, e, bindings.replaceSymbols e, none, false⟩]
    missing := missing }

theorem exec_substituteValues (hne : (bindings.replaceSymbols e == e) = false) :
    ∃ text missing, (Sheet.new e bindings options strict).substitutionText? = some text ∧
      Work.exec Work.substituteValues (Sheet.new e bindings options strict) =
        (.ok (bindings.replaceSymbols e),
          Sheet.substituted e bindings options strict text missing) := by
  let s := Sheet.new e bindings options strict
  obtain ⟨message, missing, hmessage⟩ := s.answers_substitutionMessage s
  let announced : Sheet := { s with
    log := #[.step (.opening e), .remark (s.phrasing.restate message) false]
    missing }
  have hremark : Work.exec (Work.remark message) { s with missing } = (.ok (), announced) := rfl
  have hchange : Work.exec (Work.change e (bindings.replaceSymbols e)) announced = (.ok (),
      Sheet.substituted e bindings options strict (s.phrasing.restate message) missing) :=
    Work.exec_change_whole (s := announced) hne
  refine ⟨s.phrasing.restate message, missing, ?_, ?_⟩
  · rw [Sheet.substitutionText?, hmessage]
    rfl
  · rw [Work.substituteValues_eq, Work.exec_get_bind]
    show Work.exec (if (!(bindings.replaceSymbols e == e)) = true then _ else _) s = _
    rw [hne, if_pos Bool.not_false, Work.exec_bind_ok hmessage, Work.exec_bind_ok hremark]
    exact (Work.exec_bind_ok hchange).trans rfl

variable (e bindings) in
/-- A sheet on which nothing has been worked out yet is like that without values, whatever its tree. -/
theorem Sheet.like_unbound (tree : Expr) {log : Array Entry} (hlog : lastText? log = none)
    (missing : Array String) :
    { Sheet.new e bindings options strict with tree, log, missing }.Like (.unbound bindings) log
      #[.step (.opening tree)] (Sheet.new tree { bindings with values := [] } options strict) where
  tree := rfl
  blocks := rfl
  strict := rfl
  skipped := rfl
  approximate := rfl
  status := rfl
  reason := rfl
  events := rfl
  tags := rfl
  bindings := .unbound bindings
  options := ⟨⟨(Sheet.new e bindings options strict).presentation, rfl⟩, fun _ => rfl⟩
  words := fun _ => ⟨rfl, rfl, Catalog.steady_phrasing _⟩
  coversBlocks := fun _ hmem => nomatch hmem
  unrecorded := fun _ => rfl
  log := .refl fun _ => ⟨hlog, rfl⟩

variable (e bindings) in
theorem Sheet.like_substituted (text : String) (missing : Array String) :
    (Sheet.substituted e bindings options strict text missing).Like (.unbound bindings)
      (Sheet.substituted e bindings options strict text missing).log
      #[.step (.opening (bindings.replaceSymbols e))]
      (Sheet.new (bindings.replaceSymbols e) { bindings with values := [] } options strict) :=
  Sheet.like_unbound e bindings options strict (bindings.replaceSymbols e) rfl missing

/-- Nothing is written down if no value is put in. -/
theorem exec_substituteValues_self (hself : bindings.replaceSymbols e = e) :
    Work.exec Work.substituteValues (Sheet.new e bindings options strict) =
      (.ok e, Sheet.new e bindings options strict) := by
  rw [Work.substituteValues_eq, Work.exec_get_bind]
  show Work.exec (if (!(bindings.replaceSymbols e == e)) = true then _ else _) _ = _
  rw [hself, Expr.beq_refl]
  exact congrArg (fun e' => (Except.ok e', Sheet.new e bindings options strict)) hself

/-- What is solved with the values put in beforehand has none to put in. -/
theorem exec_substituteValues_unbound
    (hcovers : (Vocabulary.unbound bindings).Covers (bindings.replaceSymbols e)) :
    Work.exec Work.substituteValues
        (Sheet.new (bindings.replaceSymbols e) { bindings with values := [] } options strict) =
      (.ok (bindings.replaceSymbols e),
        Sheet.new (bindings.replaceSymbols e) { bindings with values := [] } options strict) :=
  exec_substituteValues_self options strict (hcovers.withValues_eq id fun _ _ => rfl)

end

/-- To solve an expression with values for its symbols is to solve what comes of it when the values are
put in, without any: both solutions end in the same fault, or have the same result and outcome. The log
of the first one is that of the second behind the step that puts the values in. -/
theorem solve_replaceSymbols (e : Expr) (bindings : Bindings) (options : Options) (strict : Bool)
    (he : e.hasCalculus = false)
    (hvalues : ∀ name value, bindings.value? name = some value → value.hasCalculus = false ∧
      ∀ other, (bindings.value? other).isSome → value.mentions other = false)
    (hne : (bindings.replaceSymbols e == e) = false) :
    (∃ fault, solve e bindings options strict = .error fault ∧
      solve (bindings.replaceSymbols e) { bindings with values := [] } options strict =
        .error fault) ∨
    ∃ result s t text entries, solve e bindings options strict = .ok (result, s) ∧
      solve (bindings.replaceSymbols e) { bindings with values := [] } options strict =
        .ok (result, t) ∧
      s.tree = t.tree ∧ s.status = t.status ∧ s.reason = t.reason ∧
      s.approximate = t.approximate ∧ s.skipped = t.skipped ∧
      (Sheet.new e bindings options strict).substitutionText? = some text ∧
      s.log = #[.step (.opening e), .remark text false,
        .step ⟨e, bindings.replaceSymbols e, e, bindings.replaceSymbols e, none, false⟩] ++ entries ∧
      t.log = #[.step (.opening (bindings.replaceSymbols e))] ++ entries := by
  have hcovers : (Vocabulary.unbound bindings).Covers (bindings.replaceSymbols e) :=
    Vocabulary.unbound_covers_replaceSymbols (fun name value hvalue =>
      Vocabulary.unbound_covers (hvalues name value hvalue).1 (hvalues name value hvalue).2) he
  obtain ⟨text, missing, htext, hfirst⟩ :=
    exec_substituteValues options strict hne
  have hsecond := exec_substituteValues_unbound options strict hcovers
  -- From here on the two sheets have the same tree, in which no bound symbol occurs.
  have hlike := Sheet.like_substituted e bindings options strict text missing
  have hagree := Work.settle_parallel (fun _ => Expr.simplify_parallel) hcovers
    _ _ _ _ hlike
  have hend := hagree.eq (Work.recovered_settle _ _)
  obtain ⟨-, hlike⟩ := hagree
  simp only [solve, Sheet.solve_eq, Work.solveWith_eq, Work.exec_bind_ok hfirst,
    Work.exec_bind_ok hsecond]
  generalize Work.exec (Work.settle _ _) (Sheet.substituted _ _ _ _ _ _) = first at hend hlike
  generalize Work.exec (Work.settle _ _) (Sheet.new _ _ _ _) = second at hend hlike
  obtain ⟨result, s⟩ := first
  obtain ⟨result', t⟩ := second
  obtain rfl : result = result' := hend
  cases result with
  | error fault => exact .inl ⟨fault, rfl, rfl⟩
  | ok result =>
    obtain ⟨entries, entries', hs, ht, -, hwords⟩ := hlike.log
    obtain ⟨rfl, -⟩ := hwords trivial
    exact .inr ⟨result, s, t, text, entries, rfl, rfl, hlike.tree, hlike.status, hlike.reason,
      hlike.approximate, hlike.skipped, htext, hs, ht⟩

/-- In `x + 1` with `2` for `x` the value is put in, and the rest is the solution of `2 + 1`. -/
theorem solve_replaceSymbols_sum :
    ∃ result s t text entries,
      solve (.sum [.sym "x", 1]) { values := [("x", 2)] } {} true = .ok (result, s) ∧
      solve (.sum [2, 1]) {} {} true = .ok (result, t) ∧ (result == 3) = true ∧
      s.log = #[.step (.opening (.sum [.sym "x", 1])), .remark text false,
        .step ⟨.sum [.sym "x", 1], .sum [2, 1], .sum [.sym "x", 1], .sum [2, 1], none, false⟩] ++
          entries ∧
      t.log = #[.step (.opening (.sum [2, 1]))] ++ entries := by
  have hvalues (name : String) (value : Expr)
      (h : Bindings.value? { values := [("x", 2)] } name = some value) :
      value.hasCalculus = false ∧
        ∀ other, (Bindings.value? { values := [("x", 2)] } other).isSome →
          value.mentions other = false := by
    simp only [Bindings.value?, List.lookup] at h
    split at h
    · cases h
      exact ⟨rfl, fun _ _ => rfl⟩
    · cases h
  have hsolves : Solves (.sum [.sym "x", 1]) { values := [("x", 2)] } {} true
      (fun result _ => result == 3) = true := by
    decide +kernel
  obtain ⟨result, s, hsolve, hresult⟩ := exists_of_solves hsolves
  rcases solve_replaceSymbols (.sum [.sym "x", 1]) { values := [("x", 2)] } {} true (by decide)
    hvalues (by decide) with ⟨fault, hfault, -⟩ | ⟨_, _, t, text, entries, hs, ht, -, -, -, -, -, -, h⟩
  · cases hsolve.symm.trans hfault
  · cases hsolve.symm.trans hs
    exact ⟨result, s, t, text, entries, hsolve, ht, hresult, h⟩

end Workings

import Workings.Proofs.Substituting

/-!
# Values that mention bound symbols

The values of the bound symbols are put into an expression all at once. While the expression is worked
out after that, a bound symbol that is met is replaced once more, also if it has come in with a value.
So a substitution is simultaneous as long as the values that are put in leave no bound symbol behind
(`solve_simultaneous`), whatever symbols the other values mention. A symbol that is left behind is
replaced again: with `y` for `x` and a value for `y`, working out `x` gives the value of `y`
(`solve_symbol_twice`).
-/

namespace Workings

/-- Two solutions end alike: in the same fault, or with the same result and outcome. -/
inductive EndAlike : Except Fault (Expr × Sheet) → Except Fault (Expr × Sheet) → Prop
  | fault (fault : Fault) : EndAlike (.error fault) (.error fault)
  | found (result : Expr) {s t : Sheet} (tree : s.tree = t.tree) (status : s.status = t.status)
      (reason : s.reason = t.reason) (approximate : s.approximate = t.approximate)
      (skipped : s.skipped = t.skipped) (events : s.events = t.events) (tags : s.tags = t.tags) :
      EndAlike (.ok (result, s)) (.ok (result, t))

/-! ### Symbols of equal expressions -/

namespace Expr

mutual

theorem mentions_normalize (name : String) (e : Expr) :
    e.normalize.mentions name = e.mentions name := by
  cases e with
  | num _ | sym _ => rfl
  | sum terms => simp only [normalize, mentions, anyMentions_normalizeAll name terms]
  | prod factors => simp only [normalize, mentions, anyMentions_normalizeAll name factors]
  | pow base exponent =>
    simp only [normalize, mentions, mentions_normalize name base, mentions_normalize name exponent]
  | call f functional subscript superscript =>
    simp only [normalize, mentions, anyMentions_normalizeAll name functional,
      anyMentions_normalizeAll name subscript, anyMentions_normalizeAll name superscript]
  | deriv body vars => simp only [normalize, mentions, mentions_normalize name body]
  | integral body var lower upper =>
    simp only [normalize, mentions, mentions_normalize name body,
      optionMentions_normalizeOption name lower, optionMentions_normalizeOption name upper]

theorem anyMentions_normalizeAll (name : String) (es : List Expr) :
    anyMentions name (normalizeAll es) = anyMentions name es := by
  cases es with
  | nil => rfl
  | cons e es =>
    simp only [normalizeAll, anyMentions, mentions_normalize name e, anyMentions_normalizeAll name es]

theorem optionMentions_normalizeOption (name : String) (e : Option Expr) :
    optionMentions name (normalizeOption e) = optionMentions name e := by
  cases e with
  | none => rfl
  | some e => simp only [normalizeOption, optionMentions, mentions_normalize name e]

end

/-- Equal expressions mention the same symbols. -/
theorem mentions_of_beq {a b : Expr} (h : (a == b) = true) (name : String) :
    a.mentions name = b.mentions name := by
  rw [← mentions_normalize name a, (beq_iff a b).1 h, mentions_normalize]

end Expr

/-- Values that leave an expression equal and no bound symbol in it are not put in at all. -/
theorem replaceSymbols_eq_self {e : Expr} {bindings : Bindings} (he : e.hasCalculus = false)
    (hleft : ∀ name, (bindings.value? name).isSome → (bindings.replaceSymbols e).mentions name = false)
    (heq : (bindings.replaceSymbols e == e) = true) : bindings.replaceSymbols e = e := by
  have hcovers : (Vocabulary.unbound bindings).Covers e :=
    Vocabulary.unbound_covers he fun name hname =>
      (Expr.mentions_of_beq heq name).symm.trans (hleft name hname)
  exact hcovers.withValues_eq id fun _ hname => hname

section

variable {e : Expr} {bindings : Bindings} (options : Options) (strict : Bool)

/-- The sheets on which the values are put in, or are not there any more, are alike. -/
theorem exists_like_substituted (he : e.hasCalculus = false)
    (hleft : ∀ name, (bindings.value? name).isSome →
      (bindings.replaceSymbols e).mentions name = false) :
    ∃ s before before',
      Work.exec Work.substituteValues (Sheet.new e bindings options strict) =
        (.ok (bindings.replaceSymbols e), s) ∧
      s.Like (.unbound bindings) before before'
        (Sheet.new (bindings.replaceSymbols e) { bindings with values := [] } options strict) := by
  cases hne : (bindings.replaceSymbols e == e) with
  | false =>
    obtain ⟨text, missing, -, hfirst⟩ := exec_substituteValues options strict hne
    exact ⟨_, _, _, hfirst, Sheet.like_substituted e bindings options strict text missing⟩
  | true =>
    have hself := replaceSymbols_eq_self he hleft hne
    rw [hself]
    exact ⟨_, _, _, exec_substituteValues_self options strict hself,
      Sheet.like_unbound e bindings options strict e rfl #[]⟩

/-- Without a bound symbol left behind, the work with the values and without them has the same result on
sheets that are alike, whatever the depth to which expressions are simplified. -/
theorem exec_simultaneous (he : e.hasCalculus = false)
    (hcalculus : (bindings.replaceSymbols e).hasCalculus = false)
    (hleft : ∀ name, (bindings.value? name).isSome →
      (bindings.replaceSymbols e).mentions name = false) (depth : Nat) :
    ∃ result s t before before',
      Work.exec (Work.solveWith (Expr.simplifyAt depth)) (Sheet.new e bindings options strict) =
        (result, s) ∧
      Work.exec (Work.solveWith (Expr.simplifyAt depth))
        (Sheet.new (bindings.replaceSymbols e) { bindings with values := [] } options strict) =
        (result, t) ∧
      s.Like (.unbound bindings) before before' t := by
  have hcovers := Vocabulary.unbound_covers hcalculus hleft
  obtain ⟨s, before, before', hfirst, hlike⟩ :=
    exists_like_substituted options strict he hleft
  have hsecond := exec_substituteValues_unbound options strict hcovers
  -- From here on the two sheets have the same tree, in which no bound symbol occurs.
  have hagree := Work.settle_parallel (fun _ => Expr.simplifyAt_parallel depth) hcovers _ _ _ _ hlike
  have hend := hagree.eq (Work.recovered_settle _ _)
  have hlike := hagree.like
  rw [Work.solveWith_eq, Work.exec_bind_ok hfirst, Work.exec_bind_ok hsecond]
  generalize Work.exec (Work.settle _ _) s = first at hend hlike
  generalize Work.exec (Work.settle _ _) (Sheet.new _ _ _ _) = second at hend hlike
  obtain ⟨result, s⟩ := first
  obtain ⟨result', t⟩ := second
  obtain rfl : result = result' := hend
  exact ⟨result, s, t, before, before', rfl, rfl, hlike⟩

end

/-- If the values that are put into an expression leave no bound symbol behind, then to solve the
expression with the values is to solve what comes of it when they are put in, without any. The values of
symbols that do not occur in the expression may mention what they like. -/
theorem solve_simultaneous (e : Expr) (bindings : Bindings) (options : Options) (strict : Bool)
    (he : e.hasCalculus = false) (hcalculus : (bindings.replaceSymbols e).hasCalculus = false)
    (hleft : ∀ name, (bindings.value? name).isSome →
      (bindings.replaceSymbols e).mentions name = false) :
    EndAlike (solve e bindings options strict)
      (solve (bindings.replaceSymbols e) { bindings with values := [] } options strict) := by
  obtain ⟨result, s, t, before, before', hfirst, hsecond, hlike⟩ :=
    exec_simultaneous options strict he hcalculus hleft Expr.maxDepth
  rw [solve, solve, Sheet.solve_eq, Sheet.solve_eq, Expr.simplify, hfirst, hsecond]
  cases result with
  | error fault => exact .fault fault
  | ok result =>
    exact .found result hlike.tree hlike.status hlike.reason hlike.approximate hlike.skipped
      hlike.events hlike.tags

/-- Of `z`, the value of which mentions `z`, no symbol is put into `x + y`. -/
theorem solve_simultaneous_unused :
    EndAlike (solve (.sum [.sym "x", .sym "y"])
        { values := [("x", 2), ("z", .sum [.sym "z", 1])] } {} true)
      (solve (.sum [2, .sym "y"]) {} {} true) := by
  refine solve_simultaneous (.sum [.sym "x", .sym "y"])
    { values := [("x", 2), ("z", .sum [.sym "z", 1])] } {} true (by decide) (by decide)
    fun name hname => ?_
  obtain ⟨p, hp, hname⟩ := List.lookup_isSome_iff.1 hname
  rw [eq_of_beq hname]
  rcases List.mem_pair.1 hp with rfl | rfl <;> rfl

/-! ### Symbols that are left behind -/

theorem Number.normalize_normalize (n : Number) : n.normalize.normalize = n.normalize := by
  cases n with
  | int n => rfl
  | float x =>
    rcases normalize_float x with ⟨n, hn, -⟩ | hx
    · rw [hn]
      rfl
    · rw [hx, hx]

theorem Expr.simplify_sym (name : String) : Expr.simplify (.sym name) = Simplify.symbol name :=
  rfl

/-- A bound symbol that is the whole tree is worked out to its value. -/
theorem Work.exec_settle_symbol {s : Sheet} {y : String} {v : Expr} (htree : s.tree = .sym y)
    (hy : s.bindings.value? y = some v) :
    ∃ result t, exec (settle Expr.simplify (.sym y)) s = (.ok result, t) ∧ (result == v) = true := by
  obtain ⟨t, ht⟩ : ∃ t, exec (Expr.simplify (.sym y)) s = (.ok v, t) := by
    have hhas : s.tree.has (.sym y) = true := by
      rw [htree]
      exact Expr.has_self _
    rw [Expr.simplify_sym, Simplify.symbol, exec_get_bind, hy]
    dsimp only
    rw [changeIfPresent, bind_assoc, exec_get_bind, hhas, if_pos rfl]
    exact ⟨_, exec_bind_ok (by rw [exec_changeWith, if_pos hhas])⟩
  have hreport (result : Expr) : ∃ t', exec (do
      if result.hasCalculus then report .partly "symbolic_calculus_remaining"
      return result) t = (.ok result, t') := by
    cases result.hasCalculus
    · exact ⟨t, rfl⟩
    · exact ⟨_, rfl⟩
  unfold settle
  cases v with
  | num n =>
    obtain ⟨t', ht'⟩ := hreport (.num n.normalize)
    refine ⟨.num n.normalize, t', ?_, ?_⟩
    · rw [exec_bind_ok (exec_tryCatch_ok ((exec_bind_ok ht).trans rfl))]
      exact ht'
    · exact (Expr.beq_iff _ _).2 (congrArg Expr.num n.normalize_normalize)
  | _ =>
    obtain ⟨t', ht'⟩ := hreport _
    refine ⟨_, t', ?_, Expr.beq_refl _⟩
    rw [exec_bind_ok (exec_tryCatch_ok ((exec_bind_ok ht).trans rfl))]
    exact ht'

/-- If a symbol stands for another one, it is worked out to the value of that symbol, and not to the
symbol that takes its place. -/
theorem solve_symbol_twice {x y : String} {v : Expr} {bindings : Bindings} (options : Options)
    (strict : Bool) (hx : bindings.value? x = some (.sym y)) (hy : bindings.value? y = some v) :
    ∃ result s t, solve (.sym x) bindings options strict = .ok (result, s) ∧ (result == v) = true ∧
      solve (bindings.replaceSymbols (.sym x)) { bindings with values := [] } options strict =
        .ok (.sym y, t) := by
  have hput : bindings.replaceSymbols (.sym x) = .sym y := by
    rw [Bindings.replaceSymbols, Expr.withValues, show bindings.values.lookup x = _ from hx,
      Option.getD_some]
  have hunbound : solve (.sym y) { bindings with values := [] } options strict = .ok (.sym y,
      Sheet.new (.sym y) { bindings with values := [] } options strict) := by
    have hfirst := @exec_substituteValues_self (.sym y) { bindings with values := [] } options strict rfl
    rw [solve, Sheet.solve_eq, Work.solveWith_eq, Work.exec_bind_ok hfirst]
    rfl
  obtain ⟨s, hs, htree, hbindings⟩ : ∃ s, Work.exec Work.substituteValues
      (Sheet.new (.sym x) bindings options strict) = (.ok (.sym y), s) ∧ s.tree = .sym y ∧
        s.bindings = bindings := by
    by_cases hxy : y = x
    · subst hxy
      exact ⟨_, exec_substituteValues_self options strict hput, rfl, rfl⟩
    · have hne : (bindings.replaceSymbols (.sym x) == .sym x) = false := by
        rw [hput]
        show (y == x) = false
        exact beq_eq_false_iff_ne.2 hxy
      obtain ⟨text, missing, -, hfirst⟩ := exec_substituteValues options strict hne
      rw [hput] at hfirst
      exact ⟨_, hfirst, hput, rfl⟩
  obtain ⟨result, t, hresult, heq⟩ := Work.exec_settle_symbol htree (hbindings ▸ hy)
  rw [hput]
  refine ⟨result, t, _, ?_, heq, hunbound⟩
  rw [solve, Sheet.solve_eq, Work.solveWith_eq, Work.exec_bind_ok hs, hresult]

/-- With `x` and `y` for each other, `x` is worked out to `x`. If both are put in at once, it is `y`. -/
theorem solve_swapped :
    ∃ result s t,
      solve (.sym "x") { values := [("x", .sym "y"), ("y", .sym "x")] } {} true =
        .ok (result, s) ∧
      solve (Bindings.replaceSymbols { values := [("x", .sym "y"), ("y", .sym "x")] } (.sym "x"))
        {} {} true = .ok (.sym "y", t) ∧
      (result == .sym "y") = false := by
  have hsolves : Solves (.sym "x") { values := [("x", .sym "y"), ("y", .sym "x")] } {} true
      (fun result _ => result == .sym "x") = true := by
    decide +kernel
  obtain ⟨result, s, hsolve, hresult⟩ := exists_of_solves hsolves
  refine ⟨result, s, _, hsolve, rfl, ?_⟩
  rw [Bool.eq_false_iff]
  intro hy
  have hxy := Expr.beq_trans (Expr.beq_symm hresult) hy
  revert hxy
  decide

end Workings

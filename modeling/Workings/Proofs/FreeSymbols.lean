import Mathlib.Data.List.Pairwise
import Workings.Proofs.Symbols

/-!
# Free symbols under substitution

Values take the place of symbols in two ways: one symbol after another by `Expr.substitute`, or all at once
by `Expr.withValues`. Both leave the variables of derivatives and integrals alone and put a value below them
as it is.

So a symbol of the value that is the variable of an integral is caught in the integrand. The symbols that are
free after a substitution are those of the value only if the symbol replaced stands outside of such integrands
(`Expr.mentions_substitute`). As long as no value mentions a symbol that is still to be replaced, the two ways
agree, whatever is bound where, and the order does not matter (`Bindings.replaceSymbols_eq_substituteEach`).
-/

namespace Workings

namespace Expr

/-! ### What is free after a substitution -/

mutual

/-- Whether a symbol occurs free outside of the integrands of integrals over `binder`. -/
def mentionsOutside (binder name : String) : Expr → Bool
  | .num _ => false
  | .sym other => other == name
  | .sum terms => anyMentionsOutside binder name terms
  | .prod factors => anyMentionsOutside binder name factors
  | .pow base exponent => mentionsOutside binder name base || mentionsOutside binder name exponent
  | .call _ functional subscript superscript =>
    anyMentionsOutside binder name functional || anyMentionsOutside binder name subscript ||
      anyMentionsOutside binder name superscript
  | .deriv body _ => mentionsOutside binder name body
  | .integral body var lower upper =>
    (var != binder && var != name && mentionsOutside binder name body) ||
      optionMentionsOutside binder name lower || optionMentionsOutside binder name upper

/-- `mentionsOutside` in one of the expressions. -/
def anyMentionsOutside (binder name : String) : List Expr → Bool
  | [] => false
  | e :: es => mentionsOutside binder name e || anyMentionsOutside binder name es

/-- `mentionsOutside` in an expression that may be missing. -/
def optionMentionsOutside (binder name : String) : Option Expr → Bool
  | none => false
  | some e => mentionsOutside binder name e

end

/-- A node that is not a derivative by the symbol. -/
def NotDerivBy (name : String) : Expr → Prop
  | .deriv _ vars => vars.any (·.1 == name) = false
  | _ => True

section

variable {a y : String} {value : Expr}

/-- Two parts that follow the rule of `mentions_substitute` follow it together. -/
theorem free_or_brought (stays m₁ m₂ o₁ o₂ brings : Bool) :
    ((stays && m₁ || o₁ && brings) || (stays && m₂ || o₂ && brings)) =
      (stays && (m₁ || m₂) || (o₁ || o₂) && brings) := by
  cases stays <;> cases brings <;> simp [Bool.or_assoc, Bool.or_left_comm]

mutual

theorem mentions_substitute_eq (e : Expr) (he : e.Everywhere (NotDerivBy a)) :
    (e.substitute a value).mentions y =
      (y != a && e.mentions y || e.mentionsOutside y a && value.mentions y) := by
  cases e with
  | num n => simp [substitute, mentions, mentionsOutside]
  | sym other =>
    rw [substitute, mentions, mentionsOutside]
    by_cases ha : other = a
    · subst ha
      have hother : (y != other && other == y) = false := by
        by_cases hy : other = y <;> simp [hy]
      rw [beq_self_eq_true, if_pos rfl, hother, Bool.false_or, Bool.true_and]
    · have hkept : (y != a && other == y) = (other == y) := by
        by_cases hy : other = y
        · subst hy
          simp [ha]
        · simp [hy]
      rw [beq_false_of_ne ha, if_neg Bool.false_ne_true, hkept, Bool.false_and, Bool.or_false, mentions]
  | sum terms => exact anyMentions_substituteAll terms he.parts
  | prod factors => exact anyMentions_substituteAll factors he.parts
  | pow base exponent =>
    rw [substitute, mentions, mentions, mentionsOutside, ← free_or_brought,
      mentions_substitute_eq base (he.parts base (by simp [children])),
      mentions_substitute_eq exponent (he.parts exponent (by simp [children]))]
  | call f functional subscript superscript =>
    rw [substitute, mentions, mentions, mentionsOutside, ← free_or_brought, ← free_or_brought,
      anyMentions_substituteAll functional fun e h => he.parts e (by simp [children, h]),
      anyMentions_substituteAll subscript fun e h => he.parts e (by simp [children, h]),
      anyMentions_substituteAll superscript fun e h => he.parts e (by simp [children, h])]
  | deriv body vars =>
    have hvars : vars.any (·.1 == a) = false := he.here
    rw [substitute, hvars, if_neg Bool.false_ne_true]
    exact mentions_substitute_eq body (he.parts body (by simp [children]))
  | integral body var lower upper =>
    have hintegrand : (var != y && mentions y (if var == a then body else substitute body a value)) =
        (y != a && (var != y && mentions y body) ||
          (var != y && var != a && mentionsOutside y a body) && value.mentions y) := by
      by_cases hy : var = y
      · simp [hy]
      · rw [bne_iff_ne.2 hy]
        by_cases ha : var = a
        · subst ha
          simp [bne_iff_ne.2 (Ne.symm hy)]
        · simp [bne_iff_ne.2 ha, beq_false_of_ne ha,
            mentions_substitute_eq body (he.parts body (by simp [children]))]
    rw [substitute, mentions, mentions, mentionsOutside, ← free_or_brought, ← free_or_brought, hintegrand,
      optionMentions_substituteOption lower fun e h => he.parts e (by simp [children, Option.mem_def.1 h]),
      optionMentions_substituteOption upper fun e h => he.parts e (by simp [children, Option.mem_def.1 h])]

theorem anyMentions_substituteAll (es : List Expr) (hes : ∀ e ∈ es, e.Everywhere (NotDerivBy a)) :
    anyMentions y (substituteAll es a value) =
      (y != a && anyMentions y es || anyMentionsOutside y a es && value.mentions y) := by
  cases es with
  | nil => simp [substituteAll, anyMentions, anyMentionsOutside]
  | cons e es =>
    obtain ⟨he, hes⟩ := List.forall_mem_cons.1 hes
    rw [substituteAll, anyMentions, anyMentions, anyMentionsOutside, ← free_or_brought,
      mentions_substitute_eq e he, anyMentions_substituteAll es hes]

theorem optionMentions_substituteOption (e : Option Expr)
    (he : ∀ e' ∈ e, e'.Everywhere (NotDerivBy a)) :
    optionMentions y (substituteOption e a value) =
      (y != a && optionMentions y e || optionMentionsOutside y a e && value.mentions y) := by
  cases e with
  | none => simp [substituteOption, optionMentions, optionMentionsOutside]
  | some e => exact mentions_substitute_eq e (he e rfl)

end

/-- A symbol is free after a substitution if and only if it was free before and is not the one replaced, or
the value brings it in at a place where no integral over it catches it. -/
theorem mentions_substitute {e : Expr} (he : e.Everywhere (NotDerivBy a)) (value : Expr) (y : String) :
    (e.substitute a value).mentions y = true ↔
      y ≠ a ∧ e.mentions y = true ∨ e.mentionsOutside y a = true ∧ value.mentions y = true := by
  rw [mentions_substitute_eq e he, Bool.or_eq_true_iff, Bool.and_eq_true_iff, Bool.and_eq_true_iff,
    bne_iff_ne]

/-- In `∫ a * y dy` from `a` to `1` the symbol `y` is not free. With `y + 1` for `a` it is, but only in the
bound. -/
theorem mentions_substitute_bound :
    ((Expr.integral (.prod [.sym "a", .sym "y"]) "y" (some (.sym "a")) (some 1)).substitute "a"
      (.sum [.sym "y", 1])).mentions "y" = true := by
  have hsym (name : String) : (Expr.sym name).Everywhere (NotDerivBy "a") := .intro trivial nofun
  have hbody : (Expr.prod [.sym "a", .sym "y"]).Everywhere (NotDerivBy "a") :=
    .prod trivial (List.forall_mem_cons.2 ⟨hsym "a", List.forall_mem_singleton.2 (hsym "y")⟩)
  have he : (Expr.integral (.prod [.sym "a", .sym "y"]) "y" (some (.sym "a")) (some 1)).Everywhere
      (NotDerivBy "a") :=
    .intro trivial (List.forall_mem_cons.2 ⟨hbody, List.forall_mem_cons.2 ⟨hsym "a",
      List.forall_mem_singleton.2 (.num trivial)⟩⟩)
  exact (mentions_substitute he _ _).2 (.inr ⟨by decide +kernel, by decide +kernel⟩)

/-- In `∫ a dy` the symbol `a` is free. With `y` for `a` it becomes `∫ y dy`, in which `y` is not. -/
theorem mentions_substitute_caught :
    (indefinite (.sym "a") "y").substitute "a" (.sym "y") = indefinite (.sym "y") "y" ∧
      ¬ (((indefinite (.sym "a") "y").substitute "a" (.sym "y")).mentions "y" = true ↔
        "y" ≠ "a" ∧ (indefinite (.sym "a") "y").mentions "y" = true ∨
          (indefinite (.sym "a") "y").mentions "a" = true ∧ (Expr.sym "y").mentions "y" = true) :=
  ⟨rfl, by decide +kernel⟩

end

/-! ### Values put in together -/

theorem lookup_dropValues (names : List String) (values : List (String × Expr)) (x : String) :
    (dropValues names values).lookup x = if names.contains x then none else values.lookup x := by
  induction values with
  | nil => simp [dropValues]
  | cons entry rest ih =>
    obtain ⟨name, value⟩ := entry
    unfold dropValues at ih ⊢
    rw [List.filter_cons, List.lookup_cons]
    by_cases hx : x = name
    · subst hx
      by_cases hin : names.contains x = true
      · simp only [hin, Bool.not_true, Bool.false_eq_true, if_false, ih, if_true]
      · simp only [Bool.eq_false_iff.2 hin, Bool.not_false, if_true, List.lookup_cons_self, beq_self_eq_true,
          Bool.false_eq_true, if_false]
    · split
      · rw [List.lookup_cons, beq_false_of_ne hx, ih]
      · rw [ih, beq_false_of_ne hx]

mutual

/-- What is put in depends on the values of the free symbols only. -/
theorem withValues_congr {values values' : List (String × Expr)} (e : Expr)
    (h : ∀ x, e.mentions x = true → values.lookup x = values'.lookup x) :
    e.withValues values = e.withValues values' := by
  cases e with
  | num n => rfl
  | sym name => rw [withValues, withValues, h name (by rw [mentions, beq_self_eq_true])]
  | sum terms => exact congrArg sum (allWithValues_congr terms h)
  | prod factors => exact congrArg prod (allWithValues_congr factors h)
  | pow base exponent =>
    rw [withValues, withValues, withValues_congr base fun x hx => h x (by simp [mentions, hx]),
      withValues_congr exponent fun x hx => h x (by simp [mentions, hx])]
  | call f functional subscript superscript =>
    rw [withValues, withValues, allWithValues_congr functional fun x hx => h x (by simp [mentions, hx]),
      allWithValues_congr subscript fun x hx => h x (by simp [mentions, hx]),
      allWithValues_congr superscript fun x hx => h x (by simp [mentions, hx])]
  | deriv body vars =>
    rw [withValues, withValues, withValues_congr body fun x hx => ?_]
    rw [lookup_dropValues, lookup_dropValues, h x hx]
  | integral body var lower upper =>
    rw [withValues, withValues, withValues_congr body fun x hx => ?_,
      optionWithValues_congr lower fun x hx => h x (by simp [mentions, hx]),
      optionWithValues_congr upper fun x hx => h x (by simp [mentions, hx])]
    rw [lookup_dropValues, lookup_dropValues]
    by_cases hvar : x = var
    · simp [hvar]
    · rw [h x (by simp [mentions, hx, bne_iff_ne.2 (Ne.symm hvar)])]

theorem allWithValues_congr {values values' : List (String × Expr)} (es : List Expr)
    (h : ∀ x, anyMentions x es = true → values.lookup x = values'.lookup x) :
    allWithValues values es = allWithValues values' es := by
  cases es with
  | nil => rfl
  | cons e es =>
    rw [allWithValues, allWithValues, withValues_congr e fun x hx => h x (by simp [anyMentions, hx]),
      allWithValues_congr es fun x hx => h x (by simp [anyMentions, hx])]

theorem optionWithValues_congr {values values' : List (String × Expr)} (e : Option Expr)
    (h : ∀ x, optionMentions x e = true → values.lookup x = values'.lookup x) :
    optionWithValues values e = optionWithValues values' e := by
  cases e with
  | none => rfl
  | some e => exact congrArg some (withValues_congr e h)

end

/-- Values of symbols that are not free in an expression are not put in. -/
theorem withValues_of_lookup_eq_none {values : List (String × Expr)} {e : Expr}
    (h : ∀ x, e.mentions x = true → values.lookup x = none) : e.withValues values = e :=
  (withValues_congr e fun x hx => (h x hx).trans List.lookup_nil.symm).trans (withValues_nil e)

/-! ### One value after another -/

section

variable {a : String} {value : Expr}

theorem dropValues_cons (names : List String) (a : String) (value : Expr) (rest : List (String × Expr)) :
    dropValues names ((a, value) :: rest) =
      if names.contains a then dropValues names rest else (a, value) :: dropValues names rest := by
  unfold dropValues
  rw [List.filter_cons]
  cases names.contains a <;> rfl

theorem lookup_dropValues_eq_none {names : List String} {rest : List (String × Expr)} {x : String}
    (h : rest.lookup x = none) : (dropValues names rest).lookup x = none := by
  rw [lookup_dropValues, h, ite_self]

mutual

/-- The first value may be put in by itself if it mentions no symbol whose value is still to come. -/
theorem withValues_cons {rest : List (String × Expr)}
    (hvalue : ∀ x, value.mentions x = true → rest.lookup x = none) (e : Expr) :
    e.withValues ((a, value) :: rest) = (e.substitute a value).withValues rest := by
  cases e with
  | num n => rfl
  | sym name =>
    rw [withValues, substitute, List.lookup_cons]
    by_cases hname : name = a
    · rw [hname, beq_self_eq_true, if_pos rfl]
      exact (withValues_of_lookup_eq_none hvalue).symm
    · rw [beq_false_of_ne hname, if_neg Bool.false_ne_true, withValues]
  | sum terms => exact congrArg sum (allWithValues_cons hvalue terms)
  | prod factors => exact congrArg prod (allWithValues_cons hvalue factors)
  | pow base exponent =>
    rw [withValues, substitute, withValues, withValues_cons hvalue base, withValues_cons hvalue exponent]
  | call f functional subscript superscript =>
    rw [withValues, substitute, withValues, allWithValues_cons hvalue functional,
      allWithValues_cons hvalue subscript, allWithValues_cons hvalue superscript]
  | deriv body vars =>
    have hbound : (vars.map (·.1)).contains a = vars.any (·.1 == a) := by
      rw [List.contains_eq_any_beq, List.any_map]
      exact congrArg vars.any (funext fun var => Bool.beq_comm)
    rw [withValues, substitute, dropValues_cons, hbound]
    by_cases hvars : vars.any (·.1 == a) = true
    · rw [if_pos hvars, if_pos hvars, withValues]
    · rw [if_neg hvars, if_neg hvars, withValues,
        withValues_cons (fun x hx => lookup_dropValues_eq_none (hvalue x hx)) body]
  | integral body var lower upper =>
    rw [withValues, substitute, withValues, dropValues_cons, optionWithValues_cons hvalue lower,
      optionWithValues_cons hvalue upper]
    by_cases hvar : var = a
    · rw [hvar, beq_self_eq_true, if_pos rfl, if_pos (by simp)]
    · rw [beq_false_of_ne hvar, if_neg Bool.false_ne_true, if_neg (by simpa using Ne.symm hvar),
        withValues_cons (fun x hx => lookup_dropValues_eq_none (hvalue x hx)) body]

theorem allWithValues_cons {rest : List (String × Expr)}
    (hvalue : ∀ x, value.mentions x = true → rest.lookup x = none) (es : List Expr) :
    allWithValues ((a, value) :: rest) es = allWithValues rest (substituteAll es a value) := by
  cases es with
  | nil => rfl
  | cons e es =>
    rw [allWithValues, substituteAll, allWithValues, withValues_cons hvalue e,
      allWithValues_cons hvalue es]

theorem optionWithValues_cons {rest : List (String × Expr)}
    (hvalue : ∀ x, value.mentions x = true → rest.lookup x = none) (e : Option Expr) :
    optionWithValues ((a, value) :: rest) e = optionWithValues rest (substituteOption e a value) := by
  cases e with
  | none => rfl
  | some e => exact congrArg some (withValues_cons hvalue e)

end

end

/-- Puts values in the place of symbols, one after another. -/
def substituteEach (e : Expr) (values : List (String × Expr)) : Expr :=
  values.foldl (fun e entry => e.substitute entry.1 entry.2) e

/-- Values that mention no symbol whose value comes later may be put in one after another. -/
theorem substituteEach_eq_withValues {values : List (String × Expr)}
    (h : values.Pairwise fun entry later => entry.2.mentions later.1 = false) (e : Expr) :
    e.substituteEach values = e.withValues values := by
  induction values generalizing e with
  | nil => exact (withValues_nil e).symm
  | cons entry rest ih =>
    obtain ⟨hentry, hrest⟩ := List.pairwise_cons.1 h
    have hvalue : ∀ x, entry.2.mentions x = true → rest.lookup x = none := by
      intro x hx
      refine List.lookup_eq_none_iff.2 fun later hlater => bne_iff_ne.2 fun heq => ?_
      rw [heq, hentry later hlater] at hx
      cases hx
    exact (ih hrest _).trans (withValues_cons hvalue e).symm

end Expr

/-! ### The order of the values -/

/-- Where every symbol has one value, that is the one found. -/
theorem lookup_eq_some_iff_mem {values : List (String × Expr)} (h : (values.map Prod.fst).Nodup)
    {x : String} {value : Expr} : values.lookup x = some value ↔ (x, value) ∈ values := by
  induction values with
  | nil => simp
  | cons entry rest ih =>
    obtain ⟨name, first⟩ := entry
    obtain ⟨hname, hrest⟩ := List.nodup_cons.1 h
    rw [List.lookup_cons, List.mem_cons, Prod.mk.injEq, ← ih hrest]
    by_cases hx : x = name
    · subst hx
      have hlater : rest.lookup x ≠ some value := fun hlookup =>
        hname (List.mem_map.2 ⟨_, (ih hrest).1 hlookup, rfl⟩)
      simp [hlater, eq_comm]
    · simp [hx, beq_false_of_ne hx]

namespace Bindings

variable {bindings : Bindings} {order : List (String × Expr)}

/-- With one value for each symbol, the values in any order are the bindings. -/
theorem mem_iff_of_perm (hnames : (bindings.values.map Prod.fst).Nodup) (horder : order.Perm bindings.values)
    (x : String) (value : Expr) : (x, value) ∈ order ↔ bindings.value? x = some value :=
  horder.mem_iff.trans (lookup_eq_some_iff_mem hnames).symm

/-- A list of the bindings has the values of the bindings. -/
theorem lookup_of_mem_iff (horder : ∀ x value, (x, value) ∈ order ↔ bindings.value? x = some value)
    (x : String) : order.lookup x = bindings.value? x := by
  refine Option.ext fun value => ⟨fun h => ?_, fun h => ?_⟩
  · obtain ⟨before, after, hsplit, -⟩ := List.lookup_eq_some_iff.1 h
    exact (horder x value).1 (hsplit ▸ by simp)
  · have hsome : (order.lookup x).isSome :=
      List.lookup_isSome_iff.2 ⟨_, (horder x value).2 h, beq_self_eq_true x⟩
    obtain ⟨found, hfound⟩ := Option.isSome_iff_exists.1 hsome
    obtain ⟨before, after, hsplit, -⟩ := List.lookup_eq_some_iff.1 hfound
    have hsame := (horder x found).1 (hsplit ▸ by simp)
    rw [hfound, ← hsame, h]

/-- Putting in values all at once is putting them in one after another, whatever the order, if no value
mentions a bound symbol. -/
theorem replaceSymbols_eq_substituteEach
    (hvalues : ∀ x value, bindings.value? x = some value →
      ∀ y, (bindings.value? y).isSome → value.mentions y = false)
    (horder : ∀ x value, (x, value) ∈ order ↔ bindings.value? x = some value) (e : Expr) :
    bindings.replaceSymbols e = e.substituteEach order := by
  have hlater : order.Pairwise fun entry later => entry.2.mentions later.1 = false := by
    refine List.pairwise_of_forall_mem_list fun entry hentry later hmem => ?_
    have hbound := (horder later.1 later.2).1 hmem
    exact hvalues entry.1 entry.2 ((horder _ _).1 hentry) later.1 (hbound ▸ rfl)
  rw [Expr.substituteEach_eq_withValues hlater]
  exact Expr.withValues_congr e fun x _ => (lookup_of_mem_iff horder x).symm

/-- A derivative by `y` in an integral over `x` from `y` to `x`, with values for `a`, `x` and `y`, the last
one put in first. -/
theorem replaceSymbols_eq_substituteEach_nested :
    let bindings : Bindings := { values := [("a", .sum [.sym "t", 1]), ("x", 2), ("y", .sym "t")] }
    let body := Expr.deriv (.prod [.sym "a", .sym "x", .sym "y"]) [("y", 1)]
    let e := Expr.integral (.sum [.sym "y", body]) "x" (some (.sym "y")) (some (.sym "x"))
    bindings.replaceSymbols e =
        e.substituteEach [("y", .sym "t"), ("a", .sum [.sym "t", 1]), ("x", 2)] ∧
      bindings.replaceSymbols e =
        .integral (.sum [.sym "t", .deriv (.prod [.sum [.sym "t", 1], .sym "x", .sym "y"]) [("y", 1)]])
          "x" (some (.sym "t")) (some 2) := by
  intro bindings body e
  have hnames : (bindings.values.map Prod.fst).Nodup := by decide
  have hapart : ∀ entry ∈ bindings.values, ∀ other ∈ bindings.values,
      entry.2.mentions other.1 = false := by
    decide +kernel
  refine ⟨replaceSymbols_eq_substituteEach (fun x value hx y hy => ?_)
    (mem_iff_of_perm hnames (List.perm_append_singleton ("y", Expr.sym "t") _).symm) e, rfl⟩
  obtain ⟨other, hother⟩ := Option.isSome_iff_exists.1 hy
  exact hapart (x, value) ((lookup_eq_some_iff_mem hnames).1 hx) (y, other)
    ((lookup_eq_some_iff_mem hnames).1 hother)

end Bindings

end Workings

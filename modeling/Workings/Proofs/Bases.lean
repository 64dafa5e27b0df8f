import Workings.Proofs.Rendering

/-!
# The base of a power in its text

What stands before the caret of a power starts with a minus sign exactly if the base is a sum that comes to
one term, or a product of one factor, whose own text starts with one (`power_bases`): every other base with
a sign in front is put in parentheses, and those two are not. Since sums look for a sign at the start of the
texts of their terms, a power with such a base is shown as subtracted where it is added, and no other power
is.
-/

namespace Workings

open Render

/-! ### Signs at the start of a text -/

namespace Number

theorem normalize_pi : (float pi).normalize = .float pi := by
  have hint : (Binary64.ofFloat pi).toInt? = none := by decide +kernel
  rcases normalize_float pi with ⟨n, -, hn⟩ | h
  · rw [hint] at hn
    cases hn
  · exact h

theorem eq_pi {n : Number} (h : (n == .float pi) = true) : n = .float pi := by
  have hsame := (same_iff n (.float pi)).1 h
  rw [normalize_pi] at hsame
  cases n with
  | int k => cases hsame
  | float x =>
    rcases normalize_float x with ⟨k, hk, -⟩ | hx
    · cases hk.symm.trans hsame
    · exact hx.symm.trans hsame

end Number

namespace Render

theorem startsWithMinus_append (a b : String) :
    startsWithMinus (a ++ b) = if a.toList = [] then startsWithMinus b else startsWithMinus a := by
  unfold startsWithMinus
  rw [String.toList_append]
  cases a.toList with
  | nil => rfl
  | cons c cs => rfl

/-- A text that starts with another character has no sign in front, whatever follows. -/
theorem startsWithMinus_of_first {a : String} {c : Char} {cs : List Char} (h : a.toList = c :: cs)
    (hc : c ≠ '-') (b : String) : startsWithMinus (a ++ b) = false := by
  rw [startsWithMinus_append, h, if_neg (List.cons_ne_nil c cs)]
  unfold startsWithMinus
  rw [h]
  exact beq_eq_false_iff_ne.2 fun heq => hc (Option.some.inj heq)

theorem startsWithMinus_parentheses (text : String) : startsWithMinus ("(" ++ text ++ ")") = false := by
  rw [String.append_assoc]
  exact startsWithMinus_of_first rfl (by decide) _

theorem startsWithMinus_frac (above below : String) : startsWithMinus (frac above below) = false := by
  unfold frac
  rw [String.append_assoc]
  exact startsWithMinus_of_first rfl (by decide) _

theorem startsWithMinus_number {mark : String} (hmark : startsWithMinus mark = false) (n : Number) :
    startsWithMinus (number mark n) = n.isNegative := by
  unfold number
  split
  · rename_i h
    rw [hmark, Number.eq_pi h]
    decide +kernel
  · exact n.startsWithMinus_text

theorem negativeExponent?_of_root? {base exponent : Expr} {r : Expr × Number}
    (h : root? (.pow base exponent) = some r) : negativeExponent? exponent = none := by
  unfold root? at h
  split at h
  · rename_i heq
    cases heq
    rfl
  · cases h

end Render

/-! ### Bases -/

namespace Expr

/-- A sum that comes to one term, or a product of one factor. -/
def isSinglePart : Expr → Bool
  | .sum terms => (allTerms terms).length == 1
  | .prod factors => factors.length == 1
  | _ => false

/-- The name at the root of an expression. -/
def name? : Expr → Option String
  | .sym name => some name
  | .call f _ _ _ => some f.name
  | _ => none

/-- Has a single part, and a text with a minus sign in front. -/
def isBare (text : Expr → String) (e : Expr) : Bool :=
  e.isSinglePart && startsWithMinus (text e)

end Expr

namespace Render

/-- What a base with the given text may be in front of a caret. -/
inductive Stands (single : Bool) (text : String) : String → Prop
  | bare (h : single = true) : Stands single text text
  | grouped (h : single = false) : Stands single text ("(" ++ text ++ ")")
  | unsigned {before : String} (h : startsWithMinus text = false) (h' : startsWithMinus before = false) :
    Stands single text before

namespace Stands

variable {single : Bool} {text before : String} {form : Bool → String}

/-- A form that never gets parentheses has no sign in front. -/
theorem of_same (h : ∀ group, form group = text) (hsign : startsWithMinus text = false) :
    Stands single (form false) (form true) := by
  rw [h, h]
  exact .unsigned hsign hsign

/-- That of a single part may have one. -/
theorem of_single (h : ∀ group, form group = text) (hsingle : single = true) :
    Stands single (form false) (form true) := by
  rw [h, h]
  exact .bare hsingle

/-- A form that gets the parentheses asked for may have one, too. -/
theorem of_group (h : ∀ group, form group = Render.grouped group text)
    (hsign : single = false ∨ startsWithMinus text = false) : Stands single (form false) (form true) := by
  rw [h, h]
  rcases hsign with hsingle | hsign
  · exact .grouped hsingle
  · exact .unsigned hsign (startsWithMinus_parentheses text)

theorem startsWithMinus_eq (h : Stands single text before) :
    startsWithMinus before = (single && startsWithMinus text) := by
  cases h with
  | bare h => rw [h, Bool.true_and]
  | grouped h => rw [h, Bool.false_and, startsWithMinus_parentheses]
  | unsigned h h' => rw [h, h', Bool.and_false]

theorem eq_grouped (h : Stands single text before) (hsign : startsWithMinus text = true) :
    before = Render.grouped (!(single && startsWithMinus text)) text := by
  cases h with
  | bare h =>
    rw [h, hsign]
    rfl
  | grouped h =>
    rw [h]
    rfl
  | unsigned h h' =>
    rw [h] at hsign
    cases hsign

end Stands

/-! ### Signed sums -/

/-- A term as it stands in a sum, given the texts of all expressions. -/
def signed (text : Expr → String) (term : Expr) : Bool × String :=
  ((signedTerm fun e => some (text e)) term).getD (false, "")

theorem signedTerm_eq (text : Expr → String) (term : Expr) :
    signedTerm (fun e => some (text e)) term = some (signed text term) := by
  have hsome : ∃ result, signedTerm (fun e => some (text e)) term = some result := by
    show ∃ result, (if startsWithMinus (text term) then _ else _) = some result
    split
    · exact ⟨_, rfl⟩
    · split <;> exact ⟨_, rfl⟩
  obtain ⟨result, hresult⟩ := hsome
  unfold signed
  rw [hresult]
  rfl

theorem signedSum_eq (text : Expr → String) (terms : List Expr) :
    signedSum (fun e => some (text e)) terms =
      some (joinSigned ((allTerms terms).map (signed text)), (allTerms terms).length) := by
  unfold signedSum
  rw [funext (signedTerm_eq text)]
  show (List.mapM (fun term => Pure.pure (signed text term)) (allTerms terms) >>= _) = _
  rw [List.mapM_pure]
  rfl

theorem latexText_sum (group : Bool) (terms : List Expr) :
    latexText group (.sum terms) = grouped (group && decide (1 < (allTerms terms).length))
      (joinSigned ((allTerms terms).map (signed Expr.latex))) := by
  refine Option.some.inj ((latexText_eq group (.sum terms)).trans ?_)
  rw [latexNode]
  exact congrArg (· >>= _) (signedSum_eq Expr.latex terms)

theorem plainText_sum (group : Bool) (terms : List Expr) :
    plainText group (.sum terms) = grouped (group && decide (1 < (allTerms terms).length))
      (joinSigned ((allTerms terms).map (signed Expr.plain))) := by
  refine Option.some.inj ((plainText_eq group (.sum terms)).trans ?_)
  rw [plainNode]
  exact congrArg (· >>= _) (signedSum_eq Expr.plain terms)

/-- A power is shown as subtracted if its text starts with a minus sign, and stands as it is otherwise. -/
theorem signed_pow (text : Expr → String) (base exponent : Expr) :
    (signed text (.pow base exponent)).1 = startsWithMinus (text (.pow base exponent)) ∧
      (startsWithMinus (text (.pow base exponent)) = false →
        signed text (.pow base exponent) = (false, text (.pow base exponent))) := by
  unfold signed signedTerm
  cases h : startsWithMinus (text (.pow base exponent)) with
  | true => simp [h]
  | false => simp [h, unsigned?]

/-! ### The texts of bases -/

theorem stands_sum {f : Expr → Bool × String} (terms : List Expr) :
    Stands (Expr.sum terms).isSinglePart
      (grouped (false && decide (1 < (allTerms terms).length)) (joinSigned ((allTerms terms).map f)))
      (grouped (true && decide (1 < (allTerms terms).length)) (joinSigned ((allTerms terms).map f))) := by
  rw [Bool.true_and, Bool.false_and]
  rcases Nat.lt_trichotomy (allTerms terms).length 1 with h | h | h
  · rw [List.length_eq_zero_iff.1 (Nat.lt_one_iff.1 h)]
    have hzero : startsWithMinus "0" = false := by decide
    exact .unsigned hzero hzero
  · rw [h]
    exact .bare (beq_iff_eq.2 h)
  · rw [decide_eq_true h]
    exact .grouped (beq_eq_false_iff_ne.2 h.ne')

theorem stands_num {mark : String} (hmark : startsWithMinus mark = false) (n : Number) :
    Stands (Expr.num n).isSinglePart (number mark n) (grouped n.isNegative (number mark n)) := by
  have hsign := startsWithMinus_number hmark n
  cases h : n.isNegative with
  | true => exact .grouped rfl
  | false =>
    rw [h] at hsign
    exact .unsigned hsign hsign

/-- A product is written the same with and without parentheses asked for, unless it is a fraction. -/
theorem latexText_prod (factors : List Expr) :
    (∃ text, ∀ group, latexText group (.prod factors) = text) ∨
      ∃ above below, ∀ group, latexText group (.prod factors) = grouped group (frac above below) := by
  have heq (group : Bool) := latexText_eq group (.prod factors)
  simp only [latexNode] at heq
  split at heq
  · exact .inl ⟨latexText true (.prod factors), fun group =>
      Option.some.inj ((heq group).trans (heq true).symm)⟩
  · exact .inr ⟨_, _, fun group => Option.some.inj (heq group)⟩

/-- A product of several factors gets parentheses, and every other one has those of its own form. -/
theorem stands_latexProd (factors : List Expr) :
    ∃ before, latexBase (fun group part => some (latexText group part)) (.prod factors) = some before ∧
      Stands (Expr.prod factors).isSinglePart (Expr.prod factors).latex before := by
  rw [latexBase]
  split
  · rename_i hlength
    exact ⟨_, rfl, .grouped (beq_eq_false_iff_ne.2 hlength.ne')⟩
  · rename_i hlength
    refine ⟨_, rfl, ?_⟩
    rcases latexText_prod factors with ⟨text, htext⟩ | ⟨above, below, htext⟩
    · rcases factors with _ | ⟨factor, _ | _⟩
      · exact .of_same htext (htext true ▸ rfl)
      · exact .of_single htext rfl
      · exact absurd hlength (by simp)
    · exact .of_group htext (.inr (startsWithMinus_frac above below))

/-- A power gets parentheses, unless it is a root, which starts with the sign for one. -/
theorem stands_latexPow (base exponent : Expr) :
    ∃ before, latexBase (fun group part => some (latexText group part)) (.pow base exponent) = some before ∧
      Stands (Expr.pow base exponent).isSinglePart (Expr.pow base exponent).latex before := by
  have heq (group : Bool) := latexText_eq group (.pow base exponent)
  rw [latexBase]
  cases hroot : root? (.pow base exponent) with
  | none => exact ⟨_, rfl, .grouped rfl⟩
  | some r =>
    simp only [latexNode, negativeExponent?_of_root? hroot, hroot] at heq
    refine ⟨_, rfl, .of_same (fun group => Option.some.inj (heq group)) ?_⟩
    rw [String.append_assoc]
    exact startsWithMinus_of_first rfl (by decide) _

theorem stands_latexBase {base : Expr} (hname : base.name?.any startsWithMinus = false) :
    ∃ before, latexBase (fun group part => some (latexText group part)) base = some before ∧
      Stands base.isSinglePart base.latex before := by
  have heq (group : Bool) := latexText_eq group base
  cases base with
  | num n =>
    have hlatex : (Expr.num n).latex = latexNumber n := Option.some.inj (heq false)
    refine ⟨_, rfl, ?_⟩
    rw [hlatex]
    exact stands_num (by decide) n
  | sym name => exact ⟨_, rfl, .of_same (fun group => Option.some.inj (heq group)) hname⟩
  | sum terms =>
    have hlatex : (Expr.sum terms).latex = _ := latexText_sum false terms
    refine ⟨_, rfl, ?_⟩
    rw [hlatex, latexText_sum]
    exact stands_sum terms
  | prod factors => exact stands_latexProd factors
  | pow base exponent => exact stands_latexPow base exponent
  | call f functional subscript superscript =>
    have htext := (heq true).symm
    have hgroup (group : Bool) := Option.some.inj ((heq group).trans htext)
    simp only [latexNode, Option.bind_eq_bind, Option.bind_eq_some_iff, Option.pure_def,
      Option.some.injEq] at htext
    obtain ⟨_, -, _, -, _, -, htext⟩ := htext
    refine ⟨_, rfl, .of_same hgroup ?_⟩
    simp only [← htext, String.append_assoc]
    exact startsWithMinus_of_first rfl (by decide) _
  | deriv body vars => exact ⟨_, rfl, .of_group (fun group => Option.some.inj (heq group)) (.inl rfl)⟩
  | integral body var lower upper =>
    cases hbounds : Expr.bounds? lower upper with
    | none | some _ =>
      simp only [latexNode, hbounds] at heq
      exact ⟨_, rfl, .of_group (fun group => Option.some.inj (heq group)) (.inl rfl)⟩

/-- The marks of a plain text are no signs. -/
theorem startsWithMinus_plainScript {write : Writer} {mark text rest : String} {c : Char} {parts : List Expr}
    (hmark : mark.toList = [c]) (hc : c ≠ '-') (h : plainScript write mark parts = some text)
    (hrest : startsWithMinus rest = false) : startsWithMinus (text ++ rest) = false := by
  unfold plainScript at h
  split at h
  · cases h
    rwa [String.empty_append]
  · obtain ⟨argument, -, rfl⟩ := Option.map_eq_some_iff.1 h
    rw [String.append_assoc]
    exact startsWithMinus_of_first hmark hc _
  · obtain ⟨arguments, -, rfl⟩ := Option.map_eq_some_iff.1 h
    rw [String.append_assoc]
    exact startsWithMinus_of_first hmark hc _

/-- A single factor under the bar has a one above it. -/
theorem numerator_of_single {factors : List Expr} (hlength : factors.length = 1)
    (h : (denominator factors).isEmpty = false) : numerator factors = [] := by
  obtain ⟨factor, rfl⟩ := List.length_eq_one_iff.1 hlength
  unfold numerator denominator at *
  cases hunder : underBar? factor with
  | none => simp [hunder] at h
  | some under => simp [hunder]

/-- A product gets the parentheses asked for if it has several factors or is a fraction, and a fraction with
a single factor has a one above the bar. -/
theorem stands_plainProd (factors : List Expr) :
    Stands (Expr.prod factors).isSinglePart (Expr.prod factors).plain
      (plainText true (.prod factors)) := by
  have heq (group : Bool) := plainText_eq group (.prod factors)
  cases hbelow : (denominator factors).isEmpty with
  | true =>
    simp only [plainNode, hbelow, if_true] at heq
    obtain ⟨text, htext, -⟩ := Option.bind_eq_some_iff.1 (heq true).symm
    simp only [htext] at heq
    have hplain (group : Bool) : plainText group (.prod factors) = _ := Option.some.inj (heq group)
    rcases factors with _ | ⟨factor, _ | ⟨second, rest⟩⟩
    · have hone (group : Bool) : plainText group (.prod []) = "1" := by cases group <;> rfl
      exact .of_same hone (by decide)
    · have hsame (group : Bool) : plainText group (.prod [factor]) = text := by
        rw [hplain]
        cases group <;> rfl
      exact .of_single hsame rfl
    · have hgroup (group : Bool) :
          plainText group (.prod (factor :: second :: rest)) = grouped group text := by
        rw [hplain]
        simp
      exact .of_group hgroup (.inl rfl)
  | false =>
    simp only [plainNode, hbelow, Bool.false_eq_true, if_false] at heq
    refine .of_group (fun group => Option.some.inj (heq group)) ?_
    cases hsingle : (Expr.prod factors).isSinglePart with
    | false => exact .inl rfl
    | true =>
      rw [numerator_of_single (beq_iff_eq.1 hsingle) hbelow, String.append_assoc]
      have hone : (plainText true (Expr.buildProd [])).toList = ['1'] := rfl
      exact .inr (startsWithMinus_of_first hone (by decide) _)

/-- A power gets the parentheses asked for, unless it is a root. -/
theorem stands_plainPow (base exponent : Expr) :
    Stands (Expr.pow base exponent).isSinglePart (Expr.pow base exponent).plain
      (plainText true (.pow base exponent)) := by
  have heq (group : Bool) := plainText_eq group (.pow base exponent)
  cases hnegative : negativeExponent? exponent with
  | some magnitude =>
    simp only [plainNode, hnegative] at heq
    exact .of_group (fun group => Option.some.inj (heq group)) (.inl rfl)
  | none =>
    cases hroot : root? (.pow base exponent) with
    | none =>
      simp only [plainNode, hnegative, hroot] at heq
      exact .of_group (fun group => Option.some.inj (heq group)) (.inl rfl)
    | some r =>
      simp only [plainNode, hnegative, hroot] at heq
      refine .of_same (fun group => Option.some.inj (heq group)) ?_
      split
      all_goals
        simp only [String.append_assoc]
        exact startsWithMinus_of_first rfl (by decide) _

/-- A call never gets parentheses. It starts with its name, or where that is empty with the mark of its
first list of arguments. -/
theorem stands_plainCall {f : Signature} (functional subscript superscript : List Expr)
    (hname : startsWithMinus f.name = false) :
    Stands (Expr.call f functional subscript superscript).isSinglePart
      (Expr.call f functional subscript superscript).plain
      (plainText true (.call f functional subscript superscript)) := by
  have heq (group : Bool) := plainText_eq group (.call f functional subscript superscript)
  have htext := (heq true).symm
  have hgroup (group : Bool) := Option.some.inj ((heq group).trans htext)
  simp only [plainNode, Option.bind_eq_bind, Option.bind_eq_some_iff, Option.pure_def,
    Option.some.injEq] at htext
  obtain ⟨lowered, hlowered, raised, hraised, _, -, htext⟩ := htext
  refine .of_same hgroup ?_
  simp only [← htext, String.append_assoc]
  rw [startsWithMinus_append]
  split
  · refine startsWithMinus_plainScript rfl (by decide) hlowered ?_
    refine startsWithMinus_plainScript rfl (by decide) hraised ?_
    exact startsWithMinus_of_first rfl (by decide) _
  · exact hname

theorem stands_plain {base : Expr} (hname : base.name?.any startsWithMinus = false) :
    Stands base.isSinglePart base.plain (plainText true base) := by
  have heq (group : Bool) := plainText_eq group base
  cases base with
  | num n =>
    have hplain (group : Bool) : plainText group (.num n) = grouped (group && n.isNegative) (plainNumber n) :=
      Option.some.inj (heq group)
    have hself : (Expr.num n).plain = _ := hplain false
    rw [hself, hplain]
    exact stands_num (by decide) n
  | sym name => exact .of_same (fun group => Option.some.inj (heq group)) hname
  | sum terms =>
    have hself : (Expr.sum terms).plain = _ := plainText_sum false terms
    rw [hself, plainText_sum]
    exact stands_sum terms
  | prod factors => exact stands_plainProd factors
  | pow base exponent => exact stands_plainPow base exponent
  | call f functional subscript superscript => exact stands_plainCall functional subscript superscript hname
  | deriv body vars =>
    refine .of_same (fun group => Option.some.inj (heq group)) ?_
    simp only [String.append_assoc]
    exact startsWithMinus_of_first rfl (by decide) _
  | integral body var lower upper =>
    cases hbounds : Expr.bounds? lower upper with
    | none | some _ =>
      simp only [plainNode, hbounds] at heq
      refine .of_same (fun group => Option.some.inj (heq group)) ?_
      simp only [String.append_assoc]
      exact startsWithMinus_of_first rfl (by decide) _

/-! ### Powers -/

theorem startsWithMinus_before {after : String} {cs : List Char} (h : after.toList = '^' :: cs)
    (before : String) : startsWithMinus (before ++ after) = startsWithMinus before := by
  rw [startsWithMinus_append]
  split
  · rename_i hnil
    unfold startsWithMinus
    rw [h, hnil]
    rfl
  · rfl

/-- How a power shows its base, given the texts of all expressions and what stands before the caret. -/
structure ShowsBase (text : Expr → String) (base exponent : Expr) (before : String) : Prop where
  /-- There is a minus sign in front exactly if the base is bare. -/
  sign : startsWithMinus before = base.isBare text
  /-- A base with a minus sign in front is in parentheses exactly if it is not bare. -/
  grouping : startsWithMinus (text base) = true → before = grouped (!base.isBare text) (text base)
  /-- The power is shown as subtracted in a sum exactly if its base is bare, and is written as it stands
  otherwise. -/
  inSum : ∀ terms left right, allTerms terms = left ++ .pow base exponent :: right →
    ∃ written, text (.sum terms) = joinSigned
        (left.map (signed text) ++ (base.isBare text, written) :: right.map (signed text)) ∧
      (base.isBare text = false → written = text (.pow base exponent))

theorem Stands.showsBase {text : Expr → String} {base exponent : Expr} {before after : String}
    {cs : List Char} (h : Stands base.isSinglePart (text base) before) (hafter : after.toList = '^' :: cs)
    (hpower : text (.pow base exponent) = before ++ after)
    (hsum : ∀ terms, text (.sum terms) = joinSigned ((allTerms terms).map (signed text))) :
    ShowsBase text base exponent before where
  sign := h.startsWithMinus_eq
  grouping := h.eq_grouped
  inSum terms left right hterms := by
    have hsign : startsWithMinus (text (.pow base exponent)) = base.isBare text := by
      rw [hpower, startsWithMinus_before hafter]
      exact h.startsWithMinus_eq
    obtain ⟨hsubtracted, hadded⟩ := signed_pow text base exponent
    rw [hsign] at hsubtracted hadded
    refine ⟨(signed text (.pow base exponent)).2, ?_, fun hbare => ?_⟩
    · rw [hsum, hterms, List.map_append, List.map_cons, ← hsubtracted]
    · rw [hadded hbare]

end Render

/-- A power that is neither a fraction nor a root is written as its base and its exponent with a caret
between them, in LaTeX and in plain text. What stands before the caret starts with a minus sign exactly if
the base is a sum of one term or a product of one factor whose text does. Every other base with a minus
sign in front is in parentheses, and then the power is not shown as subtracted in a sum. -/
theorem power_bases {base exponent : Expr} (hnegative : negativeExponent? exponent = none)
    (hroot : root? (.pow base exponent) = none) (hname : base.name?.any startsWithMinus = false) :
    (∃ before, (Expr.pow base exponent).latex = before ++ script "^" exponent.latex ∧
      ShowsBase Expr.latex base exponent before) ∧
    ∃ before, (Expr.pow base exponent).plain = before ++ ("^" ++ plainText true exponent) ∧
      ShowsBase Expr.plain base exponent before := by
  constructor
  · obtain ⟨before, hbase, hstands⟩ := stands_latexBase hname
    have htext := latexText_eq false (.pow base exponent)
    simp only [latexNode, hnegative, hroot, hbase] at htext
    have hpower : (Expr.pow base exponent).latex = before ++ script "^" exponent.latex :=
      Option.some.inj htext
    have hafter : (script "^" exponent.latex).toList = '^' :: _ := String.toList_append
    exact ⟨before, hpower, hstands.showsBase hafter hpower (latexText_sum false)⟩
  · have htext := plainText_eq false (.pow base exponent)
    simp only [plainNode, hnegative, hroot] at htext
    have hpower : (Expr.pow base exponent).plain = plainText true base ++ ("^" ++ plainText true exponent) :=
      (Option.some.inj htext).trans (String.append_assoc ..)
    have hafter : ("^" ++ plainText true exponent).toList = '^' :: _ := String.toList_append
    exact ⟨_, hpower, (stands_plain hname).showsBase hafter hpower (plainText_sum false)⟩

/-- A negative number is in parentheses before the caret, and its square is added. -/
theorem power_bases_negative_number :
    (negativeExponent? 2 = none ∧ root? (.pow (.int (-3)) 2) = none) ∧
    ∃ before, (Expr.pow (.int (-3)) 2).latex = before ++ script "^" (Expr.latex 2) ∧
      before = "(-3)" ∧ (Expr.sum [1, .pow (.int (-3)) 2]).latex = "1 + (-3)^2" := by
  refine ⟨⟨rfl, rfl⟩, ?_⟩
  obtain ⟨⟨before, hpower, hbase⟩, -⟩ := @power_bases (.int (-3)) 2 rfl rfl rfl
  obtain ⟨written, hsum, hwritten⟩ := hbase.inSum [1, .pow (.int (-3)) 2] [1] [] rfl
  refine ⟨before, hpower, hbase.grouping (by decide), ?_⟩
  rw [hsum, hwritten rfl]
  decide +kernel

/-- A sum of one negative term is not in parentheses before the caret, so that its square is shown as
subtracted. -/
theorem power_bases_single_term :
    let power := Expr.pow (.sum [.int (-3)]) 2
    (negativeExponent? 2 = none ∧ root? power = none ∧ power.latex = "-3^2" ∧ power.plain = "-3^2") ∧
      (Expr.sum [1, power]).latex = "1 - 3^2" ∧ (Expr.sum [1, power]).plain = "1 - 3^2" := by
  decide +kernel

end Workings

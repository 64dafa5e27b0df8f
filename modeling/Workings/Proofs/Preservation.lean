import Workings.Proofs.Distributing
import Workings.Proofs.Symbols

/-!
# Solutions keep the value

Working out an expression over the natural numbers reduces it, whether the sheet is strict or tolerant:
the result and the last tree of the solution both have the value of the expression, although they need
not be the same (`reduces_of_solve`).

This is not so with negative numbers or empty sums. A replacement takes `-1` times anything for the
negation of a target whose negation is `-1`, and leaves an empty sum out of a product.
-/

namespace Workings

open Workings.Expr (Everywhere Plain)
open Work (Meets Reaches)

variable {e result : Expr} {bindings : Bindings} {options : Options} {strict : Bool} {sheet : Sheet}

namespace Work

variable {s : Sheet}

theorem meets_substituteValues (he : s.origin.Everywhere Plain) :
    Meets .reduction s substituteValues fun e => e = s.origin := by
  unfold substituteValues
  refine .look fun hs => ?_
  unfold Bindings.replaceSymbols
  rw [hs.values, Expr.withValues_nil]
  dsimp only
  rw [Expr.beq_self he]
  exact .pure rfl

theorem meets_undefinedMessage {p : Progress} (expression : Expr) :
    Meets p s (undefinedMessage expression) fun _ => True := by
  unfold undefinedMessage
  refine (meets_written expression).bind fun text t _ _ => ?_
  split
  · exact meets_wording ..
  · exact meets_wording ..

/-- A solution that ends outside of a domain ends at the tree. -/
theorem reaches_recover {total : Prop} {e : Expr} (he : e.Reduces s.tree) {fault : Fault}
    (hfault : total → fault ≠ .exhausted) :
    Reaches total .reduction s (fun _ => recover fault) e.Reduces := by
  cases fault with
  | undefined message expression =>
    refine .of_meets ?_
    refine (meets_report ..).bind fun _ t hreport _ => ?_
    refine (meets_undefinedMessage expression).bind fun text u hmessage _ => ?_
    refine (meets_remark text false).bind fun _ v hremark _ => .look fun _ => .pure ?_
    have hfollows := (hreport.trans hmessage).trans hremark
    exact he.trans (hfollows.tree he.plain)
  | _ => exact .throw hfault

theorem reaches_solveWith {total : Prop} {simplify : ℕ → Simplifier}
    (h : s.tree.Worked total simplify) (horigin : s.origin = s.tree)
    (he : s.tree.Everywhere Plain) :
    Reaches total .reduction s (fun d => solveWith (simplify d)) s.tree.Reduces := by
  unfold solveWith
  refine (Reaches.of_meets (meets_substituteValues (horigin ▸ he))).bind fun e t hstart hsame => ?_
  subst hsame
  rw [horigin]
  refine (?recovered : Reaches total .reduction t _ s.tree.Reduces).bind
    fun result u _ hresult => .of_meets ?_
  case recovered =>
    refine .tryCatch ((h t).bind fun result u _ hresult => .of_meets ?_) fun fault u hwork hfault =>
      reaches_recover ((hstart.trans hwork).tree he) hfault
    split
    · rename_i n
      cases n with
      | int n => exact .pure hresult.reduces
      | float x => exact hresult.reduces.plain.here.elim
    · exact .pure hresult.reduces
  · refine .ite (fun _ => ?_) fun _ => .pure hresult
    exact (meets_report ..).bind fun _ v _ _ => .pure hresult

end Work

/-- The result and the last tree of a solution reduce the expression that was worked out. -/
theorem reduces_of_solve (he : e.Everywhere Plain) (hbound : e.magnitude < 2 ^ 63)
    (hoptions : options.Exact) (hvalues : bindings.values = [])
    (h : solve e bindings options strict = .ok (result, sheet)) :
    e.Reduces result ∧ e.Reduces sheet.tree := by
  obtain ⟨hfollows, hresult, -⟩ :=
    (Work.reaches_solveWith (s := .new e bindings options strict)
      (faithful_simplify e he hbound) rfl he).sound ⟨hoptions, hvalues⟩
  rw [solve, Sheet.solve_eq] at h
  rcases hexec : Work.exec (Work.solveWith Expr.simplify) (.new e bindings options strict) with
    ⟨fault | a, t⟩
  · rw [hexec] at h
    cases h
  · rw [hexec] at h hfollows hresult
    cases h
    exact ⟨hresult _ rfl, hfollows.tree he⟩

/-! ### Values -/

/-- Working out an expression over the natural numbers keeps its value, whatever integers the symbols
stand for. -/
theorem solve_value (he : e.Everywhere Plain) (hbound : e.magnitude < 2 ^ 63)
    (hoptions : options.Exact) (hvalues : bindings.values = [])
    (h : solve e bindings options strict = .ok (result, sheet)) (symbols : String → ℤ) :
    result.value (.integers symbols) = e.value (.integers symbols) :=
  (reduces_of_solve he hbound hoptions hvalues h).1.value symbols

/-- Options under which numbers are worked out exactly. -/
def exactOptions : Options := { magnitudeThreshold := none, roundAndAdjust := false }

theorem exact_exactOptions : exactOptions.Exact where
  minValue := by decide +kernel
  clampLiterals := rfl
  magnitudeThreshold := rfl
  roundAndAdjust := rfl
  powers := .inl rfl

/-- The sum `2 * 3 + 2 * 3 * x`, in which both terms are changed when the first one is worked out. -/
def sharedFactors : Expr := .sum [.prod [2, 3], .prod [2, 3, .sym "x"]]

theorem plain_sharedFactors : sharedFactors.Everywhere Plain := by
  have hsymbol : (Expr.sym "x").Everywhere Plain := .intro trivial fun _ hpart => nomatch hpart
  have htwo : (2 : Expr).Everywhere Plain := .num (show Number.Natural 2 by decide)
  have hthree : (3 : Expr).Everywhere Plain := .num (show Number.Natural 3 by decide)
  have hpair : (Expr.prod [2, 3]).Everywhere Plain := Expr.plain_pair htwo hthree
  have htriple : (Expr.prod [2, 3, .sym "x"]).Everywhere Plain :=
    .prod trivial (by simp [htwo, hthree, hsymbol])
  exact .sum (List.cons_ne_nil _ _) (by simp [hpair, htriple])

theorem solve_value_sharedFactors : ∃ result sheet,
    solve sharedFactors {} exactOptions true = .ok (result, sheet) ∧
      ∀ symbols, result.value (.integers symbols) = sharedFactors.value (.integers symbols) := by
  obtain ⟨result, sheet, h, -⟩ := exists_of_solves (p := fun _ _ => true)
    (show Solves sharedFactors {} exactOptions true _ = true by decide +kernel)
  exact ⟨result, sheet, h, solve_value plain_sharedFactors (by decide) exact_exactOptions rfl h⟩

/-- With negative numbers the value may change: of `(-1) * (-1) + (-1) * 5` both terms become `1` when
the first one is worked out. -/
theorem solve_value_negative : ∃ result sheet,
    solve (.sum [.prod [Expr.minusOne, Expr.minusOne], .prod [Expr.minusOne, 5]]) {} exactOptions true =
      .ok (result, sheet) ∧ result.value (.integers fun _ => 0) = 2 ∧
      (Expr.sum [.prod [Expr.minusOne, Expr.minusOne], .prod [Expr.minusOne, 5]]).value
        (.integers fun _ => 0) = -4 := by
  obtain ⟨result, sheet, h, hvalue⟩ := exists_of_solves
    (p := fun result _ => decide (result.value (.integers fun _ => 0) = 2))
    (show Solves (.sum [.prod [Expr.minusOne, Expr.minusOne], .prod [Expr.minusOne, 5]]) {}
      exactOptions true _ = true by decide +kernel)
  exact ⟨result, sheet, h, of_decide_eq_true hvalue, by decide⟩

-- A power of ten may be left in the tree when a product occurs twice, and is lost if it is taken for infinite.
example : Solves (.sum [.prod [120, 130], .sum [.prod [120, 130, .sym "x"], .prod [12, 13]]]) {}
    { exactOptions with compactMultiplication := false, overflow := .infinity, maxExponent := 0 } false
    (fun result _ => decide (result.value (.integers fun _ => 1) = 15756)) = true := by
  decide +kernel

-- An empty sum among factors is left out, so that it counts as one instead of zero.
example : Solves (.sum [.prod [2, 3], .prod [2, 3, .sum []]]) {} exactOptions false
    (fun result _ => decide (result.value (.integers fun _ => 0) = 12)) = true := by
  decide +kernel

/-! ### Trees -/

/-- The last tree of such a solution has the value of the result. -/
theorem solve_tree_value (he : e.Everywhere Plain) (hbound : e.magnitude < 2 ^ 63)
    (hoptions : options.Exact) (hvalues : bindings.values = [])
    (h : solve e bindings options strict = .ok (result, sheet)) (symbols : String → ℤ) :
    sheet.tree.value (.integers symbols) = result.value (.integers symbols) := by
  obtain ⟨hresult, htree⟩ := reduces_of_solve he hbound hoptions hvalues h
  rw [hresult.value, htree.value]

theorem solve_tree_value_sharedFactors : ∃ result sheet,
    solve sharedFactors {} exactOptions true = .ok (result, sheet) ∧
      ∀ symbols, sheet.tree.value (.integers symbols) = result.value (.integers symbols) := by
  obtain ⟨result, sheet, h, -⟩ := exists_of_solves (p := fun _ _ => true)
    (show Solves sharedFactors {} exactOptions true _ = true by decide +kernel)
  refine ⟨result, sheet, h, ?_⟩
  exact solve_tree_value plain_sharedFactors (by decide) exact_exactOptions rfl h

/-- The last tree need not be the result: of `2 * 3 + 2 * 3 * x` the tree is left at `6 + 2 * 3 * x`, and
the result is `6 + 6 * x`. -/
theorem solve_tree_ne_result : ∃ result sheet,
    solve sharedFactors {} {} true = .ok (result, sheet) ∧ (sheet.tree == result) = false := by
  obtain ⟨result, sheet, h, hne⟩ := exists_of_solves
    (p := fun result sheet => !(sheet.tree == result))
    (show Solves sharedFactors {} {} true _ = true by decide +kernel)
  exact ⟨result, sheet, h, by simpa using hne⟩

end Workings

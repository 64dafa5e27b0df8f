import Workings.Solution.Document
import Workings.Solution.Solve

/-!
# Demonstrations

Worked solutions that show what the library does, each under a name by which it can be asked for:
`Demonstration.textFor` writes those asked for, or all of them.
-/

namespace Workings

/-- A worked solution to show. -/
structure Demonstration where
  name : String
  expression : Expr
  bindings : Bindings := {}
  options : Options := {}

namespace Demonstration

/-- The variable of all demonstrations. -/
def x : Expr := .sym "x"

/-- Every demonstration, in the order in which they are shown. -/
def all : List Demonstration := [
  { name := "long-multiplication"
    expression := .prod [1234, 5678]
    options := { roundAndAdjust := false } },
  { name := "round-and-adjust"
    expression := .prod [91, 998] },
  { name := "long-addition"
    expression := .sum [4587, 9968, .int (-1234)] },
  { name := "substitution"
    expression := .sum [.prod [3, .pow x 2], .prod [.int (-2), x], 7]
    bindings := Bindings.withValue {} "x" 12 },
  { name := "derivative"
    expression := .derivOnce (.sum [.pow x 3, .call1 "sin" (.prod [2, x])]) "x" },
  { name := "definite-integral"
    expression := .integral (.sum [.pow x 2, 1]) "x" (some 0) (some 3) },
  { name := "overflow"
    expression := .pow 7 500
    options := { Options.compactWith .concise "### Step {number}" none with overflow := .infinity } }]

/-- The written solution, its result and the rules applied in it. Only the heading is left of a
demonstration that cannot be worked out. -/
def text (d : Demonstration) : String :=
  "# " ++ d.name ++ "\n\n" ++
    match solve d.expression d.bindings d.options true with
    | .error _ => ""
    | .ok (result, sheet) =>
      (sheet.render.run sheet.missing).1 ++ "\n\n" ++
        "**Result:** $" ++ sheet.write result ++ "$ (" ++ Named.name sheet.status ++ ")\n\n" ++
        if sheet.events.isEmpty then ""
        else "**Rules applied:**\n\n" ++ sheet.eventLines ++ "\n\n"

/-- The name under which the report of a fault is shown. -/
def faultName : String := "domain-error"

/-- The report of a logarithm outside of its domain. -/
def faultText : String :=
  let logarithm := Expr.call1 "ln" (.sum [x, .int (-2)])
  let bindings := Bindings.standard.withValue "x" 2
  let tree := bindings.replaceSymbols logarithm
  match (Expr.simplify tree).run.run (Sheet.new tree bindings {} true) with
  | (.ok result, _) => "`" ++ logarithm.plain ++ "` evaluated to `" ++ result.plain ++ "`\n"
  | (.error fault, sheet) => (fault.diagnostic sheet.tree).report "input" ++ "\n"

/-- The text of the demonstrations of the given names, or of all if no name is given. The report of a
fault comes first, and only if it is asked for. -/
def textFor (names : List String) : String :=
  let asked := all.filter fun d => names.isEmpty || names.contains d.name
  (if names.contains faultName then faultText else "") ++ String.join (asked.map text)

end Demonstration

end Workings

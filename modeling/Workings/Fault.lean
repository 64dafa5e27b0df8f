import Workings.Render.Plain

/-!
# Faults

What can stop a solution, and the report of it: the tree at fault in plain form with the offending part
underlined.
-/

namespace Workings

/-- What can stop a solution. -/
inductive Fault
  /-- A call or a power outside of its real domain, and why. -/
  | undefined (reason : String) (expression : Expr)
  /-- A change of a part that does not occur in the tree. -/
  | absent (part tree : Expr)
  /-- The bound on the depth of the solution was reached. -/
  | exhausted

/-- What is shown of a fault: the source text, the span of it to underline as a range of characters,
and the words. -/
structure Diagnostic where
  source : String
  start : Nat
  stop : Nat
  message : String
  label : String
  help : String

/-- The position of the first occurrence of a list of characters. -/
def findChars? (needle : List Char) : List Char → Option Nat
  | [] => if needle.isEmpty then some 0 else none
  | c :: rest =>
    if needle.isPrefixOf (c :: rest) then some 0 else (findChars? needle rest).map (· + 1)

/-- The span of the first occurrence of a text that is not empty, or the whole source. -/
def spanOf (source text : String) : Nat × Nat :=
  match if text.isEmpty then none else findChars? text.toList source.toList with
  | some start => (start, start + text.length)
  | none => (0, source.length)

namespace Diagnostic

/-- `count` times a character. -/
def run (c : Char) (count : Nat) : String :=
  String.ofList (List.replicate count c)

/-- The report of a diagnostic on a source of the given name. -/
def report (d : Diagnostic) (name : String) : String :=
  let middle := (d.start + d.stop) / 2
  let underline := String.ofList ((List.range d.stop).map fun column =>
    if column < d.start then ' ' else if column = middle then '┬' else '─')
  String.join [
    "Error: ", d.message, "\n",
    "   ╭─[", name, ":1:", toString (d.start + 1), "]\n",
    "   │\n",
    " 1 │ ", d.source, "\n",
    "   │ ", underline, "  \n",
    "   │ ", run ' ' middle, "╰", run '─' (d.stop - middle + 1), " ", d.label, "\n",
    "   │ \n",
    "   │ Help: ", d.help, "\n",
    "───╯\n"]

end Diagnostic

namespace Fault

/-- The text of a fault. -/
def message : Fault → String
  | .undefined reason expression => reason ++ " (at `" ++ expression.plain ++ "`)"
  | .absent part tree =>
    "`" ++ part.plain ++ "` not found in current tree `" ++ tree.plain ++ "`"
  | .exhausted => "the solution is nested too deeply"

/-- The diagnostic of a fault in a tree. -/
def diagnostic (fault : Fault) (tree : Expr) : Diagnostic :=
  let source := tree.plain
  match fault with
  | .undefined reason expression =>
    let text := expression.plain
    let span := spanOf source text
    { source, start := span.1, stop := span.2, message := reason
      label := "`" ++ text ++ "` is undefined here"
      help := "the worked solution stops at the last valid tree; change " ++ text ++
        " or its arguments" }
  | .absent part _ =>
    { source, start := 0, stop := source.length
      message := "cannot rewrite `" ++ part.plain ++ "`: it does not occur in the current tree"
      label := "the current tree"
      help := "this is a bug in a rewrite rule, not in the input expression" }
  | .exhausted =>
    { source, start := 0, stop := source.length, message := fault.message
      label := "the current tree", help := "simplify the input expression" }

end Fault

end Workings

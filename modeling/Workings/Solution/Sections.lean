import Workings.Sheet.Basic

/-!
# Sections of a worked solution

For display the entries of a sheet are grouped into sections. Steps that follow on each other are shown
as one chain of equations; remarks and explanations stand between the chains. A step that does not
continue the one before it opens a new section, unless it follows a pause.
-/

namespace Workings

namespace Sheet

/-- Leaves out every step that leads to the same tree as the last one kept. -/
def dropRepeats : Option Step → List Step → List Step
  | _, [] => []
  | last, step :: rest =>
    if last.any (·.full == step.full) then dropRepeats last rest
    else step :: dropRepeats (some step) rest

/-- The steps of a chain that are shown: those that change the tree, or one that does not if there are
no others. -/
def shown (chain : List Step) : List Step :=
  let kept := dropRepeats none chain
  if kept.any Step.changes then kept.filter Step.changes else kept

/-- The equations of a chain. -/
def equations (write : Expr → String) : List Step → Option String
  | [] => none
  | [step] =>
    if step.changes then some (displayed step [step]) else some ("$$ " ++ write step.full ++ " $$")
  | first :: rest => some (displayed first (first :: rest))
where
  /-- The first tree and all the trees that follow from it. -/
  displayed (first : Step) (steps : List Step) : String :=
    "$$ " ++ write first.previous ++
      String.join (steps.map fun step => " \\\\\n= " ++ write step.full) ++ " $$"

/-- Steps as chains of equations. A step that does not start from the tree the last one led to starts a
new chain. -/
def chain (write : Expr → String) (steps : List Step) : String :=
  let chains := steps.splitBy fun a b => b.previous == a.full
  match chains.filterMap fun run => equations write (shown run) with
  | [] => ""
  | texts => "\n".intercalate texts ++ "\n"

end Sheet

/-- The state of grouping entries into sections: the sections finished and the one in progress, the
steps not yet shown, the last step shown, and how many chains were shown. -/
structure Grouping where
  finished : List (List String) := []
  current : List String := []
  pending : List Step := []
  last : Option Step := none
  chains : Nat := 0
  before : Option Entry := none
  beforeStep : Option Step := none

namespace Grouping

/-- Adds a text to the section in progress. -/
def push (g : Grouping) (text : String) : Grouping :=
  { g with current := g.current ++ [text] }

/-- Shows steps as a chain. -/
def display (g : Grouping) (write : Expr → String) (steps : List Step) : Grouping :=
  { g.push (Sheet.chain write steps) with chains := g.chains + 1 }

/-- Shows the pending steps, continued from the last step shown. A first step alone is not shown. -/
def flush (g : Grouping) (write : Expr → String) : Grouping :=
  let shown := match g.last with
    | some last => if g.pending.isEmpty then g else g.display write (last :: g.pending)
    | none => if 1 < g.pending.length then g.display write g.pending else g
  { shown with last := g.pending.getLast?.or g.last, pending := [] }

/-- Shows what is left. The last step is shown on its own only if no chain was shown. -/
def finish (g : Grouping) (write : Expr → String) : Grouping :=
  match g.last with
  | some last =>
    if !g.pending.isEmpty || g.chains == 0 then g.display write (last :: g.pending) else g
  | none => if g.pending.isEmpty then g else g.display write g.pending

/-- Starts a new section. -/
def startSection (g : Grouping) (write : Expr → String) : Grouping :=
  let g := g.flush write
  { g with finished := g.finished ++ [g.current], current := [] }

/-- Whether a step continues another: it changes part of what the other produced, or removes what it
produced. -/
def continues (previous step : Step) : Bool :=
  previous.result.has step.part ||
    decide (step.full.occurrences previous.result <
      previous.full.occurrences previous.part)

/-- Whether the last entry is a pause. -/
def paused (g : Grouping) : Bool :=
  match g.before with
  | some (.remark _ pause) => pause
  | _ => false

/-- Adds an entry. -/
def add (write : Expr → String) (g : Grouping) (entry : Entry) : Grouping :=
  match entry with
  | .remark text _ => { (g.flush write).push text with before := some entry }
  | .step step =>
    let g : Grouping := if g.beforeStep.any (continues · step) || g.paused then g else g.startSection write
    let g : Grouping := match step.explanation with
      | some explanation =>
        let g := (g.flush write).push (explanation ++ "\n")
        if step.changes then { g with pending := g.pending ++ [step] } else g
      | none =>
        if g.beforeStep.any (·.full == step.full) then g
        else { g with pending := g.pending ++ [step] }
    { g with before := some entry, beforeStep := some step }

end Grouping

namespace Sheet

/-- The sections of a solution, without empty texts and without empty sections. -/
def sections (sheet : Sheet) : List (List String) :=
  let g := (sheet.log.toList.foldl (Grouping.add sheet.write) {}).finish sheet.write
  ((g.finished ++ [g.current]).map fun texts => texts.filter (!·.isEmpty)).filter (!·.isEmpty)

end Sheet

end Workings

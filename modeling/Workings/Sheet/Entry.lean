import Workings.Expr.Basic
import Workings.Options

/-!
# Entries of a worked solution

A solution is written down as a list of entries: steps, each of which changes one part of the tree,
and remarks. Beside it stands a list of events, which name the rules of calculus that were applied.
-/

namespace Workings

/-- A change of one part of the tree: `part` became `result`, and with it the tree
`previous` became `full`. -/
structure Step where
  part : Expr
  result : Expr
  previous : Expr
  full : Expr
  explanation : Option String
  approximate : Bool

/-- The step that opens every solution: the tree becomes itself. -/
def Step.opening (tree : Expr) : Step :=
  ⟨tree, tree, tree, tree, none, false⟩

/-- Whether a step changed the tree. -/
def Step.changes (step : Step) : Bool :=
  !(step.full == step.previous)

/-- A line of a worked solution. A remark that is a pause keeps the next step in the same section. -/
inductive Entry
  | step (step : Step)
  | remark (text : String) (pause : Bool)

namespace Entry

/-- The step of an entry. -/
def step? : Entry → Option Step
  | .step s => some s
  | .remark _ _ => none

/-- The text of a remark. -/
def text? : Entry → Option String
  | .step _ => none
  | .remark text _ => some text

end Entry

/-- The application of a rule. -/
structure Event where
  rule : String
  category : EventCategory
  input : Option Expr := none
  output : Option Expr := none
  message : Option String := none
  flags : List String := []

/-- Text that is there, in the sense that it is not empty. -/
def nonempty? (text : Option String) : Option String :=
  text.filter fun s => !s.isEmpty

end Workings

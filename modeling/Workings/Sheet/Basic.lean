import Workings.Bindings
import Workings.Expr.Occurrence
import Workings.Fault
import Workings.Render.Latex
import Workings.Sheet.Entry

/-!
# The sheet of a worked solution

A `Sheet` holds the tree as it stands, everything written down so far, and the outcome: how far the
solution got and why it stopped there, whether anything was rounded, and which rules were used. Work on
a sheet is done in `Work`, which keeps the sheet also when it ends in a fault.

While the parts of a node are simplified one after the other, those still to come have to follow the
changes made by the ones before. For that a *block* of trees can be opened on the sheet: every change
of the tree is also made in the trees of every open block.
-/

namespace Workings

/-- The state of a worked solution. -/
structure Sheet where
  bindings : Bindings
  options : Options
  phrasing : Phrasing
  /-- The form in which expressions stand in messages. -/
  write : Expr → String
  /-- Whether it is a fault to change a part that does not occur in the tree. -/
  strict : Bool
  /-- The tree at the start. -/
  origin : Expr
  /-- The tree as it stands. -/
  tree : Expr
  log : Array Entry
  blocks : List (List Expr) := []
  /-- The number of changes left out because their part did not occur in the tree. -/
  skipped : Nat := 0
  approximate : Bool := false
  status : Status := .exact
  reason : Option String := none
  events : Array Event := #[]
  /-- The names of the rules used, in order and without repetition. -/
  tags : List String := []
  /-- The keys of messages that were asked for and are missing. -/
  missing : Array String := #[]

/-- A change of one part of a tree. -/
structure Change where
  part : Expr
  result : Expr
  explanation : Option String := none
  approximate : Bool := false

/-- Puts a text in its place in an ordered list without repetition. -/
def insertTag (tag : String) : List String → List String
  | [] => [tag]
  | other :: rest =>
    if tag == other then other :: rest
    else if tag < other then tag :: other :: rest
    else other :: insertTag tag rest

namespace Sheet

/-- A new sheet for a tree. Messages come from the catalog of the options, and expressions stand in
them in LaTeX. -/
def new (tree : Expr) (bindings : Bindings) (options : Options) (strict : Bool) : Sheet where
  bindings := bindings
  options := options
  phrasing := (Catalog.ofProfile (options.profile.getD {})).phrasing
  write := Expr.latex
  strict := strict
  origin := tree
  tree := tree
  log := #[.step (.opening tree)]

/-- A tolerant sheet for work on the side. It shares the options, the phrasing and the form of
expressions. -/
def aside (sheet : Sheet) (tree : Expr) (bindings : Bindings) : Sheet where
  bindings := bindings
  options := sheet.options
  phrasing := sheet.phrasing
  write := sheet.write
  strict := false
  origin := tree
  tree := tree
  log := #[.step (.opening tree)]
  missing := sheet.missing

/-- The explanation of a step. It may name the trees and the parts of the step in placeholders. -/
def explanation (sheet : Sheet) (c : Change) (full : Expr) : Option String :=
  (nonempty? c.explanation).map fun template =>
    sheet.phrasing.restate (Template.fill template [
      ("snapshot", sheet.write full),
      ("previous", sheet.write sheet.tree),
      ("original", sheet.write c.part),
      ("simplified", sheet.write c.result)])

/-- The step that a change of the tree makes. -/
def stepFor (sheet : Sheet) (c : Change) : Step :=
  let full := sheet.tree.replace c.part c.result
  ⟨c.part, c.result, sheet.tree, full, sheet.explanation c full, c.approximate⟩

/-- Makes a change in the tree and in every open block. It is written down if it is explained or
changes the tree. -/
def accept (sheet : Sheet) (c : Change) : Sheet :=
  let step := sheet.stepFor c
  { sheet with
    tree := step.full
    blocks := sheet.blocks.map fun trees => trees.map (·.replace c.part c.result)
    log := if step.explanation.isSome || step.changes then sheet.log.push (.step step) else sheet.log }

/-- Remembers that a value was rounded or estimated. -/
def flag (sheet : Sheet) (approximate : Bool) : Sheet :=
  { sheet with approximate := sheet.approximate || approximate }

/-- Writes down a remark, unless the last entry is a remark of the same text. -/
def remark (sheet : Sheet) (text : String) (pause : Bool) : Sheet :=
  let text := sheet.phrasing.restate text
  if (sheet.log.back?.bind Entry.text?) == some text then sheet
  else { sheet with log := sheet.log.push (.remark text pause) }

/-- Reports a status. A more severe one takes the place of the old status and its reason; otherwise
only a missing reason is filled in. -/
def report (sheet : Sheet) (status : Status) (reason : String) : Sheet :=
  if sheet.status.severity < status.severity then
    { sheet with status := status, reason := some reason }
  else
    { sheet with reason := sheet.reason.or (some reason) }

/-- Adds the name of a rule. -/
def tag (sheet : Sheet) (name : String) : Sheet :=
  if name.isEmpty then sheet else { sheet with tags := insertTag name sheet.tags }

/-- Records the application of a rule. -/
def record (sheet : Sheet) (event : Event) : Sheet :=
  let sheet := sheet.tag event.rule
  { sheet with events := sheet.events.push event }

/-- Records the application of a rule and writes its message down as a remark. -/
def recordAsRemark (sheet : Sheet) (event : Event) : Sheet :=
  match nonempty? event.message with
  | none => sheet.record event
  | some message =>
    let text := if sheet.options.showRuleName then "[" ++ event.rule ++ "] " ++ message else message
    (sheet.record event).remark text false

/-- Takes over the outcome of work on the side: its status if it has a reason, its rules and events,
and whether it rounded anything. Its entries are not taken over. -/
def absorb (sheet side : Sheet) : Sheet :=
  let sheet := match side.reason with
    | some reason => sheet.report side.status reason
    | none => sheet
  { sheet with
    tags := side.tags.foldl (fun tags tag => insertTag tag tags) sheet.tags
    events := sheet.events ++ side.events
    approximate := sheet.approximate || side.approximate }

/-- The trees of an open block. -/
def block (sheet : Sheet) (id : Nat) : List Expr :=
  sheet.blocks.getD id []

/-- One tree of an open block. -/
def blockItem? (sheet : Sheet) (id index : Nat) : Option Expr :=
  (sheet.block id)[index]?

/-- Writes over one tree of an open block. -/
def setBlockItem (sheet : Sheet) (id index : Nat) (value : Expr) : Sheet :=
  { sheet with blocks := sheet.blocks.modify id fun trees => trees.set index value }

/-- The steps written down. -/
def steps (sheet : Sheet) : List Step :=
  sheet.log.toList.filterMap Entry.step?

end Sheet

/-- Work on a sheet, which may end in a fault. The sheet is kept either way. -/
abbrev Work := ExceptT Fault (StateM Sheet)

namespace Work

/-- Makes a change. If its part does not occur in the tree, that is a fault on a strict sheet, and
a tolerant sheet counts it and goes on. -/
def changeWith (c : Change) : Work Unit := do
  modify (·.flag c.approximate)
  let sheet ← get
  if sheet.tree.has c.part then
    set (sheet.accept c)
  else if sheet.strict then
    throw (.absent c.part sheet.tree)
  else
    set { sheet with skipped := sheet.skipped + 1 }

/-- Changes one part of the tree. -/
def change (part result : Expr) : Work Unit :=
  changeWith ⟨part, result, none, false⟩

/-- Changes one part of the tree and says why. -/
def explain (part result : Expr) (explanation : String) : Work Unit :=
  changeWith ⟨part, result, some explanation, false⟩

/-- Changes one part of the tree to a value that is not exact, and says why. -/
def estimate (part result : Expr) (explanation : String) : Work Unit :=
  changeWith ⟨part, result, some explanation, true⟩

/-- Makes a change if its part occurs in the tree. -/
def changeIfPresent (c : Change) : Work Unit := do
  if (← get).tree.has c.part then changeWith c

/-- Writes down a remark. -/
def remark (text : String) : Work Unit :=
  modify (·.remark text false)

/-- Keeps the next step in the same section. -/
def pause : Work Unit :=
  modify (·.remark "" true)

/-- Reports a status and its reason. -/
def report (status : Status) (reason : String) : Work Unit :=
  modify (·.report status reason)

/-- The policies in force. -/
def options : Work Options :=
  return (← get).options

/-- The form of an expression in a message. -/
def written (e : Expr) : Work String :=
  return (← get).write e

/-- Asks for a message. -/
def ask {α : Type} (question : Asking α) : Work α := do
  let sheet ← get
  let (answer, missing) := question.run sheet.missing
  set { sheet with missing := missing }
  return answer

/-- The message for a key: the long or short default, or the text put in its place, filled in with the
payload. -/
def wording (key verbose concise : String) (payload : Payload) : Work String := do
  let sheet ← get
  ask (sheet.phrasing.message key (some (sheet.options.template key verbose concise)) payload)

/-- Works with a block open, which is closed afterwards also if the work ends in a fault. The work is
given the number of the block. -/
def withBlock {α : Type} (trees : List Expr) (work : Nat → Work α) : Work α :=
  ExceptT.mk do
    let id := (← get).blocks.length
    modify fun sheet => { sheet with blocks := sheet.blocks ++ [trees] }
    let result ← (work id).run
    modify fun sheet => { sheet with blocks := sheet.blocks.take id }
    return result

/-- Works on a sheet on the side, and gives its sheet back with the result. Only the missing keys are
carried over, also if the work ends in a fault. -/
def onTheSide {α : Type} (tree : Expr) (bindings : Bindings) (work : Work α) : Work (α × Sheet) :=
  ExceptT.mk do
    let sheet ← get
    let (result, side) := work.run.run (sheet.aside tree bindings)
    set { sheet with missing := side.missing }
    return result.map fun a => (a, side)

end Work

end Workings

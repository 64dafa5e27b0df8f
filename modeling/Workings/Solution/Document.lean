import Workings.Solution.Sections
import Workings.Text.Json

/-!
# The written solution

A solution is written as Markdown with LaTeX (`Sheet.render`), as a structured document
(`Sheet.document`), and the document as JSON text. What stands between, before and after the sections
can be put in other words by the phrasing, so all of it is done in `Asking`.
-/

namespace Workings

/-- A section of a document. -/
structure Section where
  index : Nat
  heading : String
  texts : List String
  body : String

/-- A structured solution. -/
structure Document where
  status : Status
  reason : Option String
  approximate : Bool
  tags : List String
  sections : List Section
  rendered : String

namespace Sheet

/-- The break between lines. -/
def lineBreak (sheet : Sheet) : Asking String :=
  sheet.phrasing.template "render.newline" (some "\n")

/-- The heading of a section. A template in the options comes before the phrasing. -/
def heading (sheet : Sheet) (number : Nat) : Asking String := do
  let template ← match nonempty? (sheet.options.wording.map Wording.headingTemplate) with
    | some template => pure template
    | none => sheet.phrasing.template "step.heading" (some defaultHeading)
  return Template.fill template [("number", toString number)]

/-- One section of the written solution. -/
def renderSection (sheet : Sheet) (key default joiner newline : String) (number : Nat)
    (texts : List String) : Asking String := do
  let payload := [
    ("heading", ← sheet.heading number),
    ("body", joiner.intercalate texts),
    ("number", toString number),
    ("newline", newline)]
  sheet.phrasing.message key (some default) payload

/-- The solution as Markdown with LaTeX. A single section has no heading. -/
def render (sheet : Sheet) : Asking String := do
  let template := sheet.phrasing.template
  let newline ← sheet.lineBreak
  let joiner ← template "render.substep.joiner" (some newline)
  let separator ← template "render.step.joiner" (some (newline ++ newline))
  let opening ← template "render.document.prefix" (some "")
  let closing ← template "render.document.suffix" (some "")
  match sheet.sections with
  | [texts] =>
    let block ← sheet.renderSection "render.single_step.block" "{body}" joiner newline 1 texts
    return opening ++ block ++ closing
  | sections =>
    let blocks ← sections.zipIdx.mapM fun (texts, index) =>
      sheet.renderSection "render.step.block" "{heading}{newline}{body}" joiner newline (index + 1)
        texts
    return opening ++ separator.intercalate blocks ++ closing

/-- The solution as a structured document. -/
def document (sheet : Sheet) : Asking Document := do
  let newline ← sheet.lineBreak
  let sections ← sheet.sections.zipIdx.mapM fun (texts, index) => do
    return { index := index + 1, heading := ← sheet.heading (index + 1), texts := texts
             body := newline.intercalate texts : Section }
  return {
    status := sheet.status
    reason := sheet.reason
    approximate := sheet.approximate
    tags := sheet.tags
    sections := sections
    rendered := ← sheet.render }

/-- A numbered line for every event, such as `1. [derivative] diff_power - message (flags: a, b)`. -/
def eventLines (sheet : Sheet) : String :=
  "\n".intercalate (sheet.events.toList.zipIdx.map fun (event, index) =>
    toString (index + 1) ++ ". [" ++ Named.name event.category ++ "] " ++ event.rule ++
      (nonempty? event.message).elim "" (" - " ++ ·) ++
      (if event.flags.isEmpty then "" else " (flags: " ++ ", ".intercalate event.flags ++ ")"))

end Sheet

namespace Document

open Text (Json)

/-- The tag of the format of documents. -/
def schemaVersion : String := "explanation_document_v1"

/-- A section as a JSON value. -/
def sectionJson (s : Section) : Json :=
  .obj [
    ("index", .nat s.index),
    ("heading", .str s.heading),
    ("substeps", .arr (s.texts.map .str)),
    ("body", .str s.body)]

/-- A document as JSON text. -/
def json (d : Document) : String :=
  Json.pretty (.obj [
    ("schema_version", .str schemaVersion),
    ("solve_status", .str (Named.name d.status)),
    ("reason_code", d.reason.elim .null .str),
    ("is_approximate", .bool d.approximate),
    ("coverage_tags", .arr (d.tags.map .str)),
    ("steps", .arr (d.sections.map sectionJson)),
    ("rendered", .str d.rendered)])

end Document

end Workings

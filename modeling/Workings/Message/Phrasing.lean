import Workings.Message.Template

/-!
# Phrasing

Messages are asked for by key. A `Phrasing` answers with a template, or with a message filled in from a
payload, and may put another text in the place of a whole sentence. Asking for a key that has no text
of its own can be recorded, so questions are asked in `Asking`, which carries the keys recorded so far.
-/

namespace Workings

/-- A computation that may ask for messages. The state holds the missing keys, in the order in which
they were asked for. -/
abbrev Asking := StateM (Array String)

/-- A source of messages. -/
structure Phrasing where
  /-- The template for a key, given a default. -/
  template : String → Option String → Asking String
  /-- The message for a key, given a default template and the values to fill in. -/
  message : String → Option String → Payload → Asking String
  /-- The text to write in the place of a complete sentence. -/
  restate : String → String

/-- A phrasing that has only templates: messages are filled-in templates and sentences stay as they
are. -/
def Phrasing.ofTemplates (template : String → Option String → Asking String) : Phrasing where
  template := template
  message key default payload := return Template.fill (← template key default) payload
  restate := id

end Workings

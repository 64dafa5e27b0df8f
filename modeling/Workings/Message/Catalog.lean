import Workings.Message.Phrasing
import Workings.Text.LowerCase

/-!
# Message catalogs

A catalog holds texts that override the default templates of keys, and texts that override whole
sentences. A template may refer to another one as `{{key}}`; such references are replaced before the
payload is filled in, in at most six rounds.
-/

namespace Workings

/-- What to do about a key without a text of its own. -/
inductive MissingKeyPolicy
  /-- Use the default, or nothing. -/
  | fallback
  /-- Use the default, or the key in double brackets. -/
  | marker
  /-- Like `marker`, and record the key. -/
  | error
  deriving Repr, DecidableEq, Inhabited

/-- The texts of a catalog. -/
structure Profile where
  locale : String := ""
  missingKeyPolicy : MissingKeyPolicy := .fallback
  messageOverrides : List (String × String) := []
  textOverrides : List (String × String) := []
  deriving Repr, DecidableEq, Inhabited

/-- A profile in use: its locale is never empty and is in lower case. -/
structure Catalog where
  locale : String
  missingKeyPolicy : MissingKeyPolicy
  messageOverrides : List (String × String)
  textOverrides : List (String × String)
  deriving Repr, DecidableEq

namespace Catalog

/-- The catalog of a profile. -/
def ofProfile (profile : Profile) : Catalog where
  locale := if profile.locale.isEmpty then "en" else Text.lower profile.locale
  missingKeyPolicy := profile.missingKeyPolicy
  messageOverrides := profile.messageOverrides
  textOverrides := profile.textOverrides

/-- The visible mark of a key without a text. -/
def mark (key : String) : String :=
  "[[" ++ key ++ "]]"

/-- The template for a key. -/
def template (catalog : Catalog) (key : String) (default : Option String) : Asking String :=
  match catalog.messageOverrides.lookup key with
  | some text => pure text
  | none =>
    match catalog.missingKeyPolicy with
    | .fallback => pure (default.getD "")
    | .marker => pure (default.getD (mark key))
    | .error => do
      modify (·.push key)
      return default.getD (mark key)

/-- Whether a character may stand in a reference. -/
def isKeyChar (c : Char) : Bool :=
  c.isAlphanum || c == '_' || c == '.' || c == '-'

/-- The characters before the first pair of closing braces. -/
def beforeClose? : List Char → Option (List Char)
  | [] => none
  | c :: rest =>
    if c == '\x7d' && rest.head? == some '\x7d' then some []
    else (beforeClose? rest).map (c :: ·)

/-- The key of the reference that follows a pair of opening braces. -/
def reference? (chars : List Char) : Option (List Char) :=
  (beforeClose? chars).filter fun key => !key.isEmpty && key.all isKeyChar

/-- Replaces the references in what follows `skip` characters that belong to a reference already
replaced. -/
def expandChars (catalog : Catalog) : Nat → List Char → Asking (List Char)
  | _, [] => pure []
  | skip + 1, _ :: rest => expandChars catalog skip rest
  | 0, '\x7b' :: '\x7b' :: rest =>
    match reference? rest with
    | some key => do
      let text ← catalog.template (String.ofList key) none
      return text.toList ++ (← expandChars catalog (key.length + 2) rest)
    | none => return '\x7b' :: '\x7b' :: (← expandChars catalog 0 rest)
  | 0, c :: rest => return c :: (← expandChars catalog 0 rest)

/-- Replaces references round by round until a round changes nothing, in at most `rounds` rounds. -/
def expand (catalog : Catalog) : Nat → String → Asking String
  | 0, text => pure text
  | rounds + 1, text => do
    let expanded := String.ofList (← expandChars catalog 0 text.toList)
    if expanded == text then return text
    catalog.expand rounds expanded

/-- The greatest number of rounds in which references are replaced. -/
def maxRounds : Nat := 6

/-- The message for a key. -/
def message (catalog : Catalog) (key : String) (default : Option String) (payload : Payload) :
    Asking String := do
  let text ← catalog.expand maxRounds (← catalog.template key default)
  return Template.fill text payload

/-- The text to write in the place of a complete sentence. -/
def restate (catalog : Catalog) (text : String) : String :=
  (catalog.textOverrides.lookup text).getD text

/-- The catalog as a source of messages. -/
def phrasing (catalog : Catalog) : Phrasing where
  template := catalog.template
  message := catalog.message
  restate := catalog.restate

end Catalog

end Workings

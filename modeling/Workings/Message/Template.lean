/-!
# Templates

A template is a text with placeholders `{name}`. Filling it in puts the values of a payload in the
places of the names it knows, all at once: values are never searched for further placeholders, and any
other brace stays as it is.
-/

namespace Workings

/-- The named values of a message. Of two values of one name the first counts. -/
abbrev Payload := List (String × String)

namespace Template

/-- The value of the placeholder whose name starts the given characters, and the length of the
name. -/
def placeholder? (payload : Payload) (chars : List Char) : Option (List Char × Nat) :=
  let name := chars.takeWhile (· != '\x7d')
  if name.length < chars.length then
    (payload.lookup (String.ofList name)).map fun value => (value.toList, name.length)
  else
    none

/-- Fills in what follows `skip` characters that belong to a placeholder already filled in. -/
def fillChars (payload : Payload) : Nat → List Char → List Char
  | _, [] => []
  | skip + 1, _ :: rest => fillChars payload skip rest
  | 0, c :: rest =>
    match if c = '\x7b' then placeholder? payload rest else none with
    | some (value, length) => value ++ fillChars payload (length + 1) rest
    | none => c :: fillChars payload 0 rest

/-- The template with every placeholder that the payload knows filled in. -/
def fill (template : String) (payload : Payload) : String :=
  String.ofList (fillChars payload 0 template.toList)

end Template

end Workings

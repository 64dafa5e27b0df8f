/-!
# JSON text

A value is written over several lines, every level indented by two blanks. An empty list or object
stays on one line.
-/

namespace Workings.Text

/-- A JSON value, the members of an object in the order in which they are written. -/
inductive Json
  | null
  | bool (value : Bool)
  | nat (value : Nat)
  | str (value : String)
  | arr (items : List Json)
  | obj (members : List (String × Json))

namespace Json

/-- A hexadecimal digit in lower case. -/
def hexDigit (n : Nat) : Char :=
  (Nat.digitChar (n % 16))

/-- The form of a character inside of a string. -/
def escapeChar (c : Char) : List Char :=
  if c = '"' then ['\\', '"']
  else if c = '\\' then ['\\', '\\']
  else if c = '\n' then ['\\', 'n']
  else if c = '\r' then ['\\', 'r']
  else if c = '\t' then ['\\', 't']
  else if c = '\x08' then ['\\', 'b']
  else if c = '\x0c' then ['\\', 'f']
  else if c.toNat < 0x20 then
    ['\\', 'u', '0', '0', hexDigit (c.toNat / 16), hexDigit c.toNat]
  else [c]

/-- A string in quotes. -/
def quote (text : String) : String :=
  "\"" ++ String.ofList (text.toList.flatMap escapeChar) ++ "\""

/-- A new line at a level of indentation. -/
def newline (level : Nat) : String :=
  "\n" ++ String.ofList (List.replicate (2 * level) ' ')

/-- Puts items on lines of their own between brackets. -/
def enclose (opening closing : String) (level : Nat) (items : List String) : String :=
  if items.isEmpty then
    opening ++ closing
  else
    opening ++ newline (level + 1) ++ ("," ++ newline (level + 1)).intercalate items ++
      newline level ++ closing

mutual

/-- The text of a value at a level of indentation. -/
def prettyAt (level : Nat) : Json → String
  | .null => "null"
  | .bool value => if value then "true" else "false"
  | .nat value => toString value
  | .str value => quote value
  | .arr items => enclose "[" "]" level (prettyItems (level + 1) items)
  | .obj members => enclose "\x7b" "\x7d" level (prettyMembers (level + 1) members)

/-- The texts of the items of a list. -/
def prettyItems (level : Nat) : List Json → List String
  | [] => []
  | item :: items => prettyAt level item :: prettyItems level items

/-- The texts of the members of an object. -/
def prettyMembers (level : Nat) : List (String × Json) → List String
  | [] => []
  | (key, value) :: members =>
    (quote key ++ ": " ++ prettyAt level value) :: prettyMembers level members

end

/-- The text of a value. -/
def pretty (value : Json) : String :=
  prettyAt 0 value

end Json

end Workings.Text

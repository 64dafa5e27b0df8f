/-!
# Blank characters

The characters with the `White_Space` property: what counts as blank at the start of a text.
-/

namespace Workings.Text

/-- Whether a character has the `White_Space` property. -/
def isBlank (c : Char) : Bool :=
  let n := c.toNat
  (9 ≤ n && n ≤ 13) || n == 0x20 || n == 0x85 || n == 0xa0 || n == 0x1680 ||
    (0x2000 ≤ n && n ≤ 0x200a) || n == 0x2028 || n == 0x2029 || n == 0x202f || n == 0x205f ||
    n == 0x3000

/-- A text without the blank characters at its start. -/
def dropBlank (text : String) : String :=
  String.ofList (text.toList.dropWhile isBlank)

end Workings.Text

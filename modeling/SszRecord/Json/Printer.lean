/-
Printing JSON.

There are two layouts.  The compact one has no blanks at all; the indented one puts every member
and every item on a line of its own, two blanks further in than the bracket around it, and a blank
behind each colon.  An empty array or object is a pair of brackets in both.

Strings escape the quote, the backslash and the control characters below the blank, and nothing
else.
-/
import SszRecord.Json

namespace SszRecord.Json

/-- How a tree is laid out. -/
inductive Layout where
  | compact
  | indented
deriving DecidableEq, Repr

/-- What stands before an item or a closing bracket, `depth` levels in. -/
def Layout.lineBreak : Layout → (depth : Nat) → List Char
  | .compact, _ => []
  | .indented, depth => '\n' :: List.replicate (2 * depth) ' '

/-- What stands between a key and its value. -/
def Layout.colon : Layout → List Char
  | .compact => [':']
  | .indented => [':', ' ']

/-- The lowercase hexadecimal digit of a value below sixteen. -/
def hexDigit (n : Nat) : Char := Char.ofNat (if n < 10 then 48 + n else 87 + n)

/-- A character as it stands in a string. -/
def escapeChar (c : Char) : List Char :=
  if c = '"' then ['\\', '"']
  else if c = '\\' then ['\\', '\\']
  else if c = '\n' then ['\\', 'n']
  else if c = '\r' then ['\\', 'r']
  else if c = '\t' then ['\\', 't']
  else if c = '\x08' then ['\\', 'b']
  else if c = '\x0c' then ['\\', 'f']
  else if c.toNat < 32 then ['\\', 'u', '0', '0', hexDigit (c.toNat / 16), hexDigit (c.toNat % 16)]
  else [c]

/-- A string in quotes. -/
def quoted (s : String) : List Char := '"' :: s.toList.flatMap escapeChar ++ ['"']

mutual

/-- The text of a tree, `depth` levels in. -/
def write (layout : Layout) (depth : Nat) : Json → List Char
  | .null => "null".toList
  | .bool true => "true".toList
  | .bool false => "false".toList
  | .number n => n.toText.toList
  | .string s => quoted s
  | .array [] => ['[', ']']
  | .array items =>
    '[' :: writeItems layout (depth + 1) items ++ layout.lineBreak depth ++ [']']
  | .object [] => ['\x7b', '\x7d']
  | .object members =>
    '\x7b' :: writeMembers layout (depth + 1) members ++ layout.lineBreak depth ++ ['\x7d']

/-- Items with commas between them. -/
def writeItems (layout : Layout) (depth : Nat) : List Json → List Char
  | [] => []
  | [item] => layout.lineBreak depth ++ write layout depth item
  | item :: rest =>
    layout.lineBreak depth ++ write layout depth item ++ ',' :: writeItems layout depth rest

/-- Members with commas between them. -/
def writeMembers (layout : Layout) (depth : Nat) : List (String × Json) → List Char
  | [] => []
  | [(key, value)] =>
    layout.lineBreak depth ++ quoted key ++ layout.colon ++ write layout depth value
  | (key, value) :: rest =>
    layout.lineBreak depth ++ quoted key ++ layout.colon ++ write layout depth value ++
      ',' :: writeMembers layout depth rest

end

/-- The text of a tree. -/
def toText (layout : Layout) (tree : Json) : String := String.ofList (write layout 0 tree)

end SszRecord.Json

/-
Quoted characters and texts, as messages show them.

A character stands between single quotes and a text between double quotes.  The quote itself, the
backslash, a few control characters and every character without a printed form are escaped.
-/
import SszRecord.Text.Unprintable

namespace SszRecord.Text

/-- The escape of a code point by its hexadecimal number. -/
def codePointEscape (c : Char) : List Char :=
  ['\\', 'u', '\x7b'] ++ Nat.toDigits 16 c.toNat ++ ['\x7d']

/-- A character as it stands between two `quote` characters. -/
def escape (quote c : Char) : List Char :=
  match c with
  | '\x00' => ['\\', '0']
  | '\t' => ['\\', 't']
  | '\r' => ['\\', 'r']
  | '\n' => ['\\', 'n']
  | '\\' => ['\\', '\\']
  | _ =>
    if c = quote then ['\\', c]
    else if isUnprintable c then codePointEscape c
    else [c]

/-- A character between single quotes. -/
def quotedChar (c : Char) : String := String.ofList (['\''] ++ escape '\'' c ++ ['\''])

/-- A text between double quotes. -/
def quotedText (s : String) : String :=
  String.ofList (['"'] ++ s.toList.flatMap (escape '"') ++ ['"'])

end SszRecord.Text

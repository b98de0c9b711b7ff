/-
The unread part of a YAML text.

An input is the text that is left and the mark of its first character.  Lines end at a line feed,
a carriage return or both together, and at the three line breaks of Unicode; the latter two of
those stay what they are in the content of scalars, all other breaks are read as line feeds.

A text is taken in window by window.  A window with a character that may not stand in a text is
refused only when it is reached, so what stands in front of it is read.

* `advance_rest`, `mark_advance`: moving on by characters that are no line breaks.
-/
import SszRecord.Yaml.Mark

namespace SszRecord.Yaml

/-! ### Characters -/

/-- Whether a character may stand in a text at all. -/
def isAllowed (c : Char) : Bool :=
  let n := c.toNat
  n = 9 || n = 10 || n = 13 || (32 ≤ n && n ≤ 126) || n = 133 || (160 ≤ n && n ≤ 55295) ||
    (57344 ≤ n && n ≤ 65533) || 65536 ≤ n

/-- The number of bytes of a window. -/
def windowSize : Nat := 16384

/-- The characters that lie in the first `room` bytes of a text, and those behind. -/
def takeWindow : (room : Nat) → List Char → List Char × List Char
  | _, [] => ([], [])
  | room, c :: rest =>
    if c.utf8Size ≤ room then
      let (window, rest) := takeWindow (room - c.utf8Size) rest
      (c :: window, rest)
    else ([], c :: rest)

/-- The part of a text that can be read, and whether it is cut off before the end of the text;
`fuel` bounds the number of windows. -/
def readablePart : (fuel : Nat) → List Char → List Char × Bool
  | 0, _ => ([], true)
  | fuel + 1, cs =>
    let (window, rest) := takeWindow windowSize cs
    if !window.all isAllowed then ([], true)
    else if rest.isEmpty then (window, false)
    else
      let (part, isCut) := readablePart fuel rest
      (window ++ part, isCut)

/-- Spaces and tabs. -/
def isBlank (c : Char) : Bool := c = ' ' || c = '\t'

/-- Line breaks. -/
def isBreak (c : Char) : Bool :=
  c = '\n' || c = '\r' || c = '\u0085' || c = '\u2028' || c = '\u2029'

/-- Blanks and line breaks. -/
def isSpace (c : Char) : Bool := isBlank c || isBreak c

/-- Whether a text begins with a space or break, or is at its end. -/
def atSpace : List Char → Bool
  | [] => true
  | c :: _ => isSpace c

/-- Whether a text begins with a line break, or is at its end. -/
def atBreak : List Char → Bool
  | [] => true
  | c :: _ => isBreak c

/-- Letters and digits of names. -/
def isWordChar (c : Char) : Bool := c.isAlphanum || c = '_' || c = '-'

/-! ### Moving on -/

/-- The text that is left and where it begins. -/
structure Input where
  rest : List Char
  mark : Mark := {}
deriving DecidableEq, Repr

namespace Input

/-- The input behind `count` characters, none of which is a line break. -/
def advance (count : Nat) (i : Input) : Input :=
  ⟨i.rest.drop count, ⟨i.mark.index + count, i.mark.line, i.mark.column + count⟩⟩

/-- The input behind the next character. -/
def skip (i : Input) : Input := i.advance 1

/-- The input behind the characters that satisfy a predicate; it holds of no line break. -/
def skipWhile (p : Char → Bool) (i : Input) : Input := i.advance (i.rest.takeWhile p).length

/-- The mark at the beginning of the next line, behind a break of `width` characters. -/
def nextLine (width : Nat) (m : Mark) : Mark := ⟨m.index + width, m.line + 1, 0⟩

/-- A line break at the front of an input: what it adds to a scalar, and the input behind it.
Where there is none, nothing is taken. -/
def takeBreak (i : Input) : List Char × Input :=
  match i.rest with
  | '\r' :: '\n' :: rest => (['\n'], ⟨rest, nextLine 2 i.mark⟩)
  | c :: rest =>
    if c = '\u2028' || c = '\u2029' then ([c], ⟨rest, nextLine 1 i.mark⟩)
    else if isBreak c then (['\n'], ⟨rest, nextLine 1 i.mark⟩)
    else ([], i)
  | [] => ([], i)

/-- The input behind a line break, if one is in front. -/
def skipBreak (i : Input) : Input := i.takeBreak.2

/-- The input behind blanks and a comment. -/
def skipComment (i : Input) : Input :=
  let i := i.skipWhile isBlank
  match i.rest with
  | '#' :: _ => i.skipWhile fun c => !isBreak c
  | _ => i

/-- Whether a line begins here with a character three times over and a space behind it. -/
def atIndicator (c : Char) (i : Input) : Bool :=
  match i.rest with
  | a :: b :: d :: rest => i.mark.column = 0 && a = c && b = c && d = c && atSpace rest
  | _ => false

/-- Whether a document ends here, at an indicator of one kind or the other. -/
def atDocumentIndicator (i : Input) : Bool := i.atIndicator '-' || i.atIndicator '.'

@[simp] theorem advance_rest (count : Nat) (i : Input) :
    (i.advance count).rest = i.rest.drop count := rfl

@[simp] theorem mark_advance (count : Nat) (i : Input) :
    (i.advance count).mark = ⟨i.mark.index + count, i.mark.line, i.mark.column + count⟩ := rfl

end Input

end SszRecord.Yaml

/-
The YAML tokens that are names: anchors, aliases, tags and directives.

A tag is a handle and a suffix, or written out in angle brackets.  Suffixes are bytes: a percent
sign and two digits stand for a byte, and such bytes have to come in runs that look like UTF-8.
A zero byte and what follows it is dropped.

Every function takes the input in front of what it reads and gives the content with the input
behind it, or nothing if the text is malformed.
-/
import SszRecord.Text.Digit
import SszRecord.Yaml.Input
import SszRecord.Yaml.Token

namespace SszRecord.Yaml

/-! ### Anchors -/

/-- Characters that may follow the name of an anchor directly. -/
def isAnchorEnd (c : Char) : Bool :=
  isSpace c || c = '?' || c = ':' || c = ',' || c = ']' || c = '\x7d' || c = '%' || c = '@' ||
    c = '\x60'

/-- Reads the name of an anchor or an alias behind its sign. -/
def readAnchor (i : Input) : Option (String × Input) :=
  let i := i.skip
  let name := i.rest.takeWhile isWordChar
  let i := i.advance name.length
  if name.isEmpty || !i.rest.head?.all isAnchorEnd then none else some (String.ofList name, i)

/-! ### Tags -/

/-- Characters of a tag that stand for themselves; `isWide` admits those of brackets. -/
def isTagChar (isWide : Bool) (c : Char) : Bool :=
  isWordChar c || c = ';' || c = '/' || c = '?' || c = ':' || c = '@' || c = '&' || c = '=' ||
    c = '+' || c = '$' || c = '.' || c = '!' || c = '~' || c = '*' || c = '\'' || c = '(' ||
    c = ')' || (isWide && (c = ',' || c = '[' || c = ']'))

/-- The number of bytes of a character with the given first byte. -/
def sequenceWidth? (b : UInt8) : Option Nat :=
  if b < 0x80 then some 1
  else if 0xc0 ≤ b && b < 0xe0 then some 2
  else if 0xe0 ≤ b && b < 0xf0 then some 3
  else if 0xf0 ≤ b && b < 0xf8 then some 4
  else none

/-- Reads a byte given by a percent sign and two digits. -/
def readOctet (cs : List Char) : Option (UInt8 × List Char) :=
  match cs with
  | '%' :: a :: b :: rest => do return (UInt8.ofNat (← Text.hexNumber? [a, b]), rest)
  | _ => none

/-- Reads bytes that go on with a character. -/
def readTrailingOctets : (count : Nat) → List Char → Option (Bytes × List Char)
  | 0, cs => some ([], cs)
  | count + 1, cs => do
    let (b, cs) ← readOctet cs
    if b < 0x80 || 0xc0 ≤ b then none
    let (bs, cs) ← readTrailingOctets count cs
    return (b :: bs, cs)

/-- Reads the characters of a suffix; `fuel` bounds their number. -/
def readTagChars (isWide : Bool) : (fuel : Nat) → List Char → Option (Bytes × List Char)
  | fuel + 1, c :: rest =>
    if c = '%' then do
      let (b, cs) ← readOctet (c :: rest)
      let width ← sequenceWidth? b
      let (bs, cs) ← readTrailingOctets (width - 1) cs
      let (more, cs) ← readTagChars isWide fuel cs
      return (b :: bs ++ more, cs)
    else if isTagChar isWide c then do
      let (more, cs) ← readTagChars isWide fuel rest
      return (UInt8.ofNat c.toNat :: more, cs)
    else some ([], c :: rest)
  | _, cs => some ([], cs)

/-- Reads a suffix. -/
def readSuffix (isWide : Bool) (i : Input) : Option (Bytes × Input) := do
  let (b, cs) ← readTagChars isWide i.rest.length i.rest
  return (b.takeWhile (· ≠ 0), i.advance (i.rest.length - cs.length))

/-- As `readSuffix`, for a suffix that must not be empty. -/
def readFullSuffix (isWide : Bool) (i : Input) : Option (Bytes × Input) := do
  let (b, j) ← readSuffix isWide i
  if j.mark.index = i.mark.index then none else return (b, j)

/-- Reads an exclamation mark, letters behind it and another mark behind those; the last one may
be missing, and is not counted as a letter. -/
def readHandle (i : Input) : Option (List Char × Input) :=
  match i.rest with
  | '!' :: rest =>
    let name := rest.takeWhile isWordChar
    let i := i.advance (1 + name.length)
    if i.rest.head? = some '!' then some ('!' :: name ++ ['!'], i.skip) else some ('!' :: name, i)
  | _ => none

/-- Whether a handle has a mark at both its ends. -/
def isFullHandle (handle : List Char) : Bool :=
  1 < handle.length && handle.getLast? = some '!'

/-- Reads a tag that is written out. -/
def readWrittenTag (i : Input) : Option (TagText × Input) := do
  let (suffix, i) ← readFullSuffix true (i.advance 2)
  if i.rest.head? = some '>' then return (⟨"", suffix⟩, i.skip) else none

/-- Reads a tag with a handle. -/
def readHandledTag (i : Input) : Option (TagText × Input) := do
  let (handle, i) ← readHandle i
  if isFullHandle handle then
    let (suffix, i) ← readFullSuffix false i
    return (⟨String.ofList handle, suffix⟩, i)
  else
    let (suffix, i) ← readSuffix false i
    let suffix := handle.tail.map (fun c => UInt8.ofNat c.toNat) ++ suffix
    return (if suffix.isEmpty then ⟨"", [33]⟩ else ⟨"!", suffix⟩, i)

/-- Reads a tag. -/
def readTag (inBrackets : Bool) (i : Input) : Option (TagText × Input) := do
  let (tag, i) ← if (i.rest.drop 1).head? = some '<' then readWrittenTag i else readHandledTag i
  if atSpace i.rest || (inBrackets && i.rest.head? = some ',') then return (tag, i) else none

/-! ### Directives -/

/-- The most digits of a number in a version. -/
def maxVersionDigits : Nat := 9

/-- Reads a number of a version. -/
def readVersionNumber (i : Input) : Option (Nat × Input) :=
  let digits := i.rest.takeWhile Char.isDigit
  if digits.isEmpty || maxVersionDigits < digits.length then none
  else
    some (digits.foldl (fun n c => n * 10 + (c.toNat - 48)) 0, i.advance digits.length)

/-- Reads the two numbers of a version. -/
def readVersion (i : Input) : Option (Token.Kind × Input) := do
  let (major, i) ← readVersionNumber (i.skipWhile isBlank)
  if i.rest.head? ≠ some '.' then none
  let (minor, i) ← readVersionNumber i.skip
  return (.version major minor, i)

/-- Reads a handle and what it stands for. -/
def readTagHandle (i : Input) : Option (Token.Kind × Input) := do
  let (handle, i) ← readHandle (i.skipWhile isBlank)
  if handle ≠ ['!'] && !isFullHandle handle then none
  if !i.rest.head?.any isBlank then none
  let (replacement, i) ← readFullSuffix true (i.skipWhile isBlank)
  if atSpace i.rest then return (.tagHandle (String.ofList handle) replacement, i) else none

/-- Reads a directive and the line it stands on. -/
def readDirective (i : Input) : Option (Token.Kind × Input) := do
  let i := i.skip
  let name := i.rest.takeWhile isWordChar
  let i := i.advance name.length
  if name.isEmpty || !atSpace i.rest then none
  let (kind, i) ←
    if name = "YAML".toList then readVersion i
    else if name = "TAG".toList then readTagHandle i
    else none
  let i := i.skipComment
  if atBreak i.rest then return (kind, i.skipBreak) else none

end SszRecord.Yaml

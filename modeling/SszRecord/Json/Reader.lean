/-
Reading JSON texts.

A text is one value with blanks around it.  Arrays and objects may be nested 127 levels deep; the
bracket that opens one level more is refused.
-/
import SszRecord.Json.Scan

namespace SszRecord.Json

/-! ### Inside arrays and objects -/

/-- What stands next in an array or object: its end, or the text of the next member. -/
inductive Next where
  | close (rest : List Char)
  | more (rest : List Char)

/-- Finds the next item of an array behind its bracket or behind the item before. -/
def nextItem (isFirst : Bool) (cs : List Char) : Except Fault Next :=
  match skipBlanks cs with
  | [] => faultBefore .endInList []
  | ']' :: rest => .ok (.close rest)
  | c :: rest =>
    if isFirst then .ok (.more (c :: rest))
    else if c = ',' then
      match skipBlanks rest with
      | [] => faultBefore .endInValue []
      | ']' :: rest => faultBehind .trailingComma (']' :: rest)
      | rest => .ok (.more rest)
    else faultBehind .expectedCommaOrBracket (c :: rest)

/-- Finds the key of the next member of an object; the text given starts behind the quote. -/
def nextKey (isFirst : Bool) (cs : List Char) : Except Fault Next :=
  match skipBlanks cs with
  | [] => faultBefore .endInObject []
  | '\x7d' :: rest => .ok (.close rest)
  | c :: rest =>
    if isFirst then
      if c = '"' then .ok (.more rest) else faultBehind .keyMustBeString (c :: rest)
    else if c = ',' then
      match skipBlanks rest with
      | [] => faultBefore .endInValue []
      | '"' :: rest => .ok (.more rest)
      | '\x7d' :: rest => faultBehind .trailingComma ('\x7d' :: rest)
      | rest => faultBehind .keyMustBeString rest
    else faultBehind .expectedCommaOrBrace (c :: rest)

/-- Reads the colon behind a key. -/
def readColon (cs : List Char) : Except Fault (List Char) :=
  match skipBlanks cs with
  | [] => faultBefore .endInObject []
  | ':' :: rest => .ok rest
  | rest => faultBehind .expectedColon rest

/-- Reads items up to the end of their array; `fuel` bounds their number. -/
def readItems (read : List Char → Except Fault (Json × List Char)) :
    (fuel : Nat) → (isFirst : Bool) → List Char → Except Fault (List Json × List Char)
  | 0, _, _ => faultBefore .endInList []
  | fuel + 1, isFirst, cs => do
    match ← nextItem isFirst cs with
    | .close rest => return ([], rest)
    | .more rest =>
      let (item, rest) ← read rest
      let (items, rest) ← readItems read fuel false rest
      return (item :: items, rest)

/-- Reads members up to the end of their object; `fuel` bounds their number. -/
def readMembers (read : List Char → Except Fault (Json × List Char)) :
    (fuel : Nat) → (isFirst : Bool) → List Char → Except Fault (List (String × Json) × List Char)
  | 0, _, _ => faultBefore .endInObject []
  | fuel + 1, isFirst, cs => do
    match ← nextKey isFirst cs with
    | .close rest => return ([], rest)
    | .more rest =>
      let (key, rest) ← readString rest
      let (value, rest) ← read (← readColon rest)
      let (members, rest) ← readMembers read fuel false rest
      return ((key, value) :: members, rest)

/-! ### Values -/

/-- Reads a value; `depth` levels of arrays and objects may be opened. -/
def readValue (depth : Nat) (cs : List Char) : Except Fault (Json × List Char) :=
  match skipBlanks cs with
  | [] => faultBefore .endInValue []
  | c :: rest =>
    if c = 'n' then do return (.null, ← readWord "ull".toList rest)
    else if c = 't' then do return (.bool true, ← readWord "rue".toList rest)
    else if c = 'f' then do return (.bool false, ← readWord "alse".toList rest)
    else if c = '"' then do
      let (s, rest) ← readString rest
      return (.string s, rest)
    else if c = '-' then do
      let (n, rest) ← readNumber true rest
      return (.number n, rest)
    else if (Text.digit? c).isSome then do
      let (n, rest) ← readNumber false (c :: rest)
      return (.number n, rest)
    else if c = '[' then
      match depth with
      | 0 => faultBehind .tooDeep (c :: rest)
      | depth + 1 => do
        let (items, rest) ← readItems (readValue depth) (rest.length + 1) true rest
        return (.array items, rest)
    else if c = '\x7b' then
      match depth with
      | 0 => faultBehind .tooDeep (c :: rest)
      | depth + 1 => do
        let (members, rest) ← readMembers (readValue depth) (rest.length + 1) true rest
        return (.object (collect members), rest)
    else faultBehind .expectedValue (c :: rest)

/-- The number of levels that arrays and objects may be nested. -/
def maxLevels : Nat := 127

/-- Refuses anything but blanks. -/
def readEnd (cs : List Char) : Except Fault Unit :=
  match skipBlanks cs with
  | [] => .ok ()
  | rest => faultBehind .trailingCharacters rest

/-- Reads a text that is one value. -/
def readText (cs : List Char) : Except Fault Json := do
  let (value, rest) ← readValue maxLevels cs
  readEnd rest
  return value

/-- The tree of a JSON text. -/
def ofText (s : String) : Except Report Json :=
  (readText s.toList).mapError fun fault => fault.report s

end SszRecord.Json

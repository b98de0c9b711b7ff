/-
Faults of JSON texts.

A reader of JSON fails with a cause and with the number of bytes it has left; the line and the
column follow from the text.  Lines count from one.  A column is the number of bytes since the
last line break, so a fault right behind a line break is at column zero.
-/
import SszRecord.Bytes
import SszRecord.Text.Quoted

namespace SszRecord.Json

/-- What stands where a value of another type is wanted. -/
inductive Found where
  | null
  | bool (b : Bool)
  | integer (value : Int)
  | float (text : String)
  | string (s : String)
  | sequence
  | map
deriving DecidableEq, Repr

def Found.describe : Found → String
  | .null => "null"
  | .bool b => "boolean `" ++ (if b then "true" else "false") ++ "`"
  | .integer value => "integer `" ++ toString value ++ "`"
  | .float text => "floating point `" ++ text ++ "`"
  | .string s => "string " ++ Text.quotedText s
  | .sequence => "sequence"
  | .map => "map"

/-- Why a text is not read. -/
inductive Cause where
  | endInValue
  | endInList
  | endInObject
  | endInString
  | expectedValue
  | expectedIdent
  | expectedColon
  | expectedCommaOrBracket
  | expectedCommaOrBrace
  | keyMustBeString
  | trailingComma
  | trailingCharacters
  | invalidNumber
  | numberOutOfRange
  | invalidEscape
  | controlCharacter
  | endInHexEscape
  | loneSurrogate
  | tooDeep
  | invalidType (found : Found) (expected : String)
  | invalidValue (found : Found) (expected : String)
  | duplicateField (name : String)
deriving DecidableEq, Repr

def Cause.message : Cause → String
  | .endInValue => "EOF while parsing a value"
  | .endInList => "EOF while parsing a list"
  | .endInObject => "EOF while parsing an object"
  | .endInString => "EOF while parsing a string"
  | .expectedValue => "expected value"
  | .expectedIdent => "expected ident"
  | .expectedColon => "expected `:`"
  | .expectedCommaOrBracket => "expected `,` or `]`"
  | .expectedCommaOrBrace => "expected `,` or `\x7d`"
  | .keyMustBeString => "key must be a string"
  | .trailingComma => "trailing comma"
  | .trailingCharacters => "trailing characters"
  | .invalidNumber => "invalid number"
  | .numberOutOfRange => "number out of range"
  | .invalidEscape => "invalid escape"
  | .controlCharacter => "control character (\\u0000-\\u001F) found while parsing a string"
  | .endInHexEscape => "unexpected end of hex escape"
  | .loneSurrogate => "lone leading surrogate in hex escape"
  | .tooDeep => "recursion limit exceeded"
  | .invalidType found expected => "invalid type: " ++ found.describe ++ ", expected " ++ expected
  | .invalidValue found expected =>
    "invalid value: " ++ found.describe ++ ", expected " ++ expected
  | .duplicateField name => "duplicate field `" ++ name ++ "`"

/-- A cause and the number of bytes behind the point of failure. -/
structure Fault where
  cause : Cause
  left : Nat
deriving DecidableEq, Repr

/-- A cause with the line and the column of the point of failure. -/
structure Report where
  cause : Cause
  line : Nat
  column : Nat
deriving DecidableEq, Repr

def Report.message (r : Report) : String :=
  r.cause.message ++ s!" at line {r.line} column {r.column}"

/-- Line and column behind the first `count` bytes of a text. -/
def position (bytes : Bytes) (count : Nat) : Nat × Nat :=
  (bytes.take count).foldl advance (1, 0)
where
  /-- One byte further on. -/
  advance (place : Nat × Nat) (b : UInt8) : Nat × Nat :=
    if b = 10 then (place.1 + 1, 0) else (place.1, place.2 + 1)

/-- A fault with its line and column in the text it was found in. -/
def Fault.report (f : Fault) (text : String) : Report :=
  let bytes := Bytes.ofText text
  let (line, column) := position bytes (bytes.length - f.left)
  ⟨f.cause, line, column⟩

end SszRecord.Json

/-
The YAML form of a record.

A record is a single line: containers are mappings and sequences are sequences, both in brackets
with a comma and a space between their members, integers are bare decimal digits and byte strings
are hexadecimal digits in single quotes.
-/
import SszRecord.Schema.Conformance

namespace SszRecord

namespace Kind

/-- Texts with a comma and a space between them. -/
def joined : List (List Char) → List Char
  | [] => []
  | [text] => text
  | text :: rest => text ++ ',' :: ' ' :: joined rest

mutual

/-- The text of a value. -/
def toFlow : Kind → Value → Except CodecError (List Char)
  | .bytes _, .bytes b => .ok ('\'' :: (Hex.toText b).toList ++ ['\''])
  | .byteList _, .bytes b => .ok ('\'' :: (Hex.toText b).toList ++ ['\''])
  | .uint _, .uint u => .ok u.toDecimal.toList
  | .vector item _, .vector items => do
    return '[' :: joined (← mapItems (fun v => item.toFlow v) items) ++ [']']
  | .list item _, .list items => do
    return '[' :: joined (← mapItems (fun v => item.toFlow v) items) ++ [']']
  | .container _ fields, .container values => do
    return '\x7b' :: joined (← toFlowMembers fields values) ++ ['\x7d']
  | kind, value => .error (.mismatch (.value none (.shape value.shape kind.shape)))

/-- The texts of the values of fields, each with its key. -/
def toFlowMembers : List (Field Kind) → List Value → Except CodecError (List (List Char))
  | ⟨key, kind, _⟩ :: fields, value :: values => do
    let text ← kind.toFlow value
    let texts ← toFlowMembers fields values
    return (key.toList ++ ':' :: ' ' :: text) :: texts
  | _, _ => .ok []

end

end Kind

/-- The YAML text of a record that fits the schema. -/
def Schema.toYaml (s : Schema) (r : Record) : Except CodecError String := do
  s.check r
  return String.ofList (← s.kind.toFlow (.container r))

end SszRecord

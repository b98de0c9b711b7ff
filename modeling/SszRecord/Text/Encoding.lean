/-
The text form of a record.

A record is an object with the keys of its schema, a vector or list is an array, an integer is a
string of decimal digits and a byte string is a string of hexadecimal digits with the mark `0x`.
Where a schema gives a key twice, the later value stands at the place of the earlier one.
-/
import SszRecord.Json.Printer
import SszRecord.Schema.Conformance

namespace SszRecord

namespace Kind

mutual

/-- The tree of a value. -/
def toTree : Kind → Value → Except CodecError Json
  | .bytes _, .bytes b => .ok (.string (Hex.toText b))
  | .byteList _, .bytes b => .ok (.string (Hex.toText b))
  | .uint _, .uint u => .ok (.string u.toDecimal)
  | .vector item _, .vector items => do
    return .array (← mapItems (fun v => item.toTree v) items)
  | .list item _, .list items => do
    return .array (← mapItems (fun v => item.toTree v) items)
  | .container _ fields, .container values => do
    return .object (Json.collect (← toMembers fields values))
  | kind, value => .error (.mismatch (.value none (.shape value.shape kind.shape)))

/-- Keys and trees of the values of fields. -/
def toMembers : List (Field Kind) → List Value → Except CodecError (List (String × Json))
  | ⟨key, kind, _⟩ :: fields, value :: values => do
    let tree ← kind.toTree value
    let members ← toMembers fields values
    return (key, tree) :: members
  | _, _ => .ok []

end

end Kind

namespace Schema

/-- The tree of a record that fits the schema. -/
def toTree (s : Schema) (r : Record) : Except CodecError Json := do
  s.check r
  s.kind.toTree (.container r)

/-- The JSON text of a record that fits the schema. -/
def toJson (s : Schema) (layout : Json.Layout) (r : Record) : Except CodecError String := do
  return (← s.toTree r).toText layout

end Schema

end SszRecord

/-
Sizes of encodings.

The size of a record is found without writing it.  Values of fixed size count as their kind says,
whatever they are; the others take a slot and as many bytes as they encode to.
-/
import SszRecord.Items
import SszRecord.Schema

namespace SszRecord

/-- The number of bytes of items that have a slot each. -/
def tableSize : (sizes : List Nat) → Nat
  | [] => 0
  | size :: sizes => offsetSize + size + tableSize sizes

namespace Kind

mutual

/-- The number of bytes a value encodes to. -/
def valueSize : Kind → Value → Except CodecError Nat
  | .bytes _, .bytes b => .ok b.length
  | .byteList _, .bytes b => .ok b.length
  | .uint w, .uint _ => .ok w
  | .vector item _, .vector items =>
    match item.fixedSize? with
    | some size => .ok (size * items.length)
    | none => do
      let sizes ← mapItems (fun v => item.valueSize v) items
      return tableSize sizes
  | .list item _, .list items =>
    match item.fixedSize? with
    | some size => .ok (size * items.length)
    | none => do
      let sizes ← mapItems (fun v => item.valueSize v) items
      return tableSize sizes
  | .container name fields, .container values =>
    if values.length = fields.length then fieldsSize fields values
    else .error (.mismatch (.fieldCount name fields.length values.length))
  | kind, value => .error (.mismatch (.value none (.shape value.shape kind.shape)))

/-- The number of bytes that the values of fields take in their region, slots included. -/
def fieldsSize : List (Field Kind) → List Value → Except CodecError Nat
  | ⟨_, kind, _⟩ :: fields, value :: values =>
    match kind.fixedSize? with
    | some size => return size + (← fieldsSize fields values)
    | none => do
      let n ← kind.valueSize value
      let m ← fieldsSize fields values
      return offsetSize + n + m
  | _, _ => .ok 0

end

end Kind

/-- The number of bytes a record encodes to. -/
def Schema.recordSize (s : Schema) (r : Record) : Except CodecError Nat :=
  if r.length = s.fields.length then Kind.fieldsSize s.fields r
  else .error (.mismatch (.fieldCount s.name s.fields.length r.length))

end SszRecord

/-
Encoding.

A region, that is a container or a sequence of items of variable size, is written in two parts:
first every value of fixed size and a slot for each of the others, then the values behind the
slots, all in order.  Integers are little-endian at their width.
-/
import SszRecord.Schema.Conformance
import SszRecord.Schema.Validity
import SszRecord.Wire.OffsetTable
import SszRecord.Wire.Size

namespace SszRecord

/-- The slots of items of variable size, the first of them at `offset`. -/
def itemSlots {α : Type} (size : α → Except CodecError Nat) :
    (offset : Nat) → List α → Except CodecError Bytes
  | _, [] => .ok []
  | offset, item :: rest => do
    let slot ← Wire.offsetSlot offset
    let n ← size item
    let slots ← itemSlots size (offset + n) rest
    return slot ++ slots

namespace Kind

/-- A sequence whose items have the given kind, encoded by `encode`. -/
def encodeItems (item : Kind) (encode : Value → Except CodecError Bytes) (items : List Value) :
    Except CodecError Bytes :=
  if item.isFixedSize then return (← mapItems encode items).flatten
  else do
    let slots ← itemSlots item.valueSize (offsetSize * items.length) items
    let payloads ← mapItems encode items
    return slots ++ payloads.flatten

mutual

/-- The encoding of a value. -/
def encode : Kind → Value → Except CodecError Bytes
  | .bytes _, .bytes b => .ok b
  | .byteList _, .bytes b => .ok b
  | .uint w, .uint u => .ok (u.toBytes.take w)
  | .vector item _, .vector items => encodeItems item (fun v => item.encode v) items
  | .list item _, .list items => encodeItems item (fun v => item.encode v) items
  | .container _ fields, .container values => do
    let inline ← inlineParts (fixedPartSize fields) fields values
    let payloads ← payloadParts fields values
    return inline ++ payloads
  | kind, value => .error (.mismatch (.value none (.shape value.shape kind.shape)))

/-- The inline part of a container whose next payload goes to `offset`. -/
def inlineParts (offset : Nat) : List (Field Kind) → List Value → Except CodecError Bytes
  | ⟨_, kind, _⟩ :: fields, value :: values =>
    if kind.isFixedSize then do
      let b ← kind.encode value
      let bs ← inlineParts offset fields values
      return b ++ bs
    else do
      let slot ← Wire.offsetSlot offset
      let n ← kind.valueSize value
      let bs ← inlineParts (offset + n) fields values
      return slot ++ bs
  | _, _ => .ok []

/-- The payloads of a container: its values of variable size. -/
def payloadParts : List (Field Kind) → List Value → Except CodecError Bytes
  | ⟨_, kind, _⟩ :: fields, value :: values =>
    if kind.isFixedSize then payloadParts fields values
    else do
      let b ← kind.encode value
      let bs ← payloadParts fields values
      return b ++ bs
  | _, _ => .ok []

end

end Kind

/-- The encoding of a record, once schema and record have been found in order. -/
def Schema.encode (s : Schema) (r : Record) : Except CodecError Bytes := do
  s.validate
  s.check r
  let _ ← s.recordSize r
  s.kind.encode (.container r)

end SszRecord

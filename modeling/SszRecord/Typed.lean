/-
Typed records.

A type is bound to a schema by saying how its values are written as records and how they are read
off a record, field by field.  Everything else follows: wire form, root, size and the text forms.
Types are bound to schemas whose sizes are words.
-/
import SszRecord.Merkle.Root
import SszRecord.Text.Decoding
import SszRecord.Text.Encoding
import SszRecord.Value.Cursor
import SszRecord.Wire.Decoding
import SszRecord.Wire.Encoding
import SszRecord.Yaml.Flow
import SszRecord.Yaml.Guided

namespace SszRecord

/-- A type whose values are the records of a schema. -/
class Typed (α : Type) where
  schema : Schema
  toRecord : α → Record
  /-- Reads a value off the fields of a record. -/
  read : FieldRead α

namespace Typed

variable {α : Type} [Typed α]

/-- The value of a record; fields left over are ignored. -/
def ofRecord (r : Record) : Except CodecError α := read.run r

/-- The next field as a value of the type. -/
def readField : FieldRead α := do ofRecord (← .record)

/-! ### Binary form -/

def encode (x : α) : Except CodecError Bytes := (schema α).encode (toRecord x)

def decode (data : Bytes) : Except CodecError α := do
  ofRecord (← (schema α).decode defaultMaxDepth data)

def size (x : α) : Except CodecError Nat := (schema α).recordSize (toRecord x)

def root (x : α) : Except CodecError Digest := (schema α).root defaultMaxDepth (toRecord x)

/-! ### Text forms -/

def toJson (x : α) : Except CodecError String := (schema α).toJson .compact (toRecord x)

def ofJson (text : String) : Except CodecError α := do ofRecord (← (schema α).ofJson text)

def toYaml (x : α) : Except CodecError String := (schema α).toYaml (toRecord x)

def ofYaml (text : String) : Except CodecError α := do ofRecord (← (schema α).ofYaml text)

/-- The YAML text of a value, or the reason why it has none. -/
def display (x : α) : String :=
  match toYaml x with
  | .ok text => text
  | .error e => "ERR: " ++ e.message

end Typed

end SszRecord

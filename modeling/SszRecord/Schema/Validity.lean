/-
Which schemas are accepted.

Integers have one of six widths, byte arrays and vectors are not empty, and a container declares
a field.  Fields are looked at in order and the first fault is reported, at the field of the
innermost container around it.
-/
import SszRecord.Error
import SszRecord.Schema

namespace SszRecord

/-- The widths of integers, in bytes. -/
def uintWidths : List Nat := [1, 2, 4, 8, 16, 32]

namespace Kind

mutual

/-- Refuses a kind that no schema may hold; `place` is the field that holds it. -/
def validate : Kind → Place → Except CodecError Unit
  | .bytes n, place => if n = 0 then .error (.config (.emptyBytes place)) else .ok ()
  | .uint w, place => if w ∈ uintWidths then .ok () else .error (.config (.badWidth place w))
  | .byteList _, _ => .ok ()
  | .vector item n, place =>
    if n = 0 then .error (.config (.emptyVector place)) else item.validate place
  | .list item _, place => item.validate place
  | .container name fields, _ =>
    if fields.isEmpty then .error (.config (.noFields name)) else validateFields name fields

/-- Refuses a field of the container `owner` whose kind no schema may hold. -/
def validateFields (owner : String) : List (Field Kind) → Except CodecError Unit
  | [] => .ok ()
  | ⟨key, kind, _⟩ :: rest => do
    kind.validate ⟨owner, key, []⟩
    validateFields owner rest

end

end Kind

namespace Schema

/-- Refuses a schema that cannot describe records. -/
def validate (s : Schema) : Except CodecError Unit :=
  if s.fields.isEmpty then .error (.config (.noFields s.name))
  else Kind.validateFields s.name s.fields

/-- A schema that is accepted. -/
def Valid (s : Schema) : Prop := s.validate = .ok ()

end Schema

end SszRecord

/-
Which records fit a schema.

A value fits a kind if its shape, its lengths, its widths and its maxima do.  Values are looked at
in order and the first fault is reported together with its place.
-/
import SszRecord.Items
import SszRecord.Schema

namespace SszRecord

namespace Kind

mutual

/-- Refuses a value that does not fit the kind; `place` is where the value stands. -/
def check : Kind → Place → Value → Except CodecError Unit
  | .bytes n, place, .bytes b =>
    if b.length = n then .ok ()
    else .error (.mismatch (.value place (.byteCount n b.length)))
  | .uint w, place, .uint u =>
    if u.FitsWidth w then .ok () else .error (.mismatch (.value place (.tooWide u w)))
  | .byteList max, _, .bytes b =>
    if b.length ≤ max then .ok () else .error (.itemTooLarge b.length max)
  | .vector item n, place, .vector items =>
    if items.length = n then checkItems (fun i v => item.check (place.item i) v) 0 items
    else .error (.mismatch (.value place (.itemCount n items.length)))
  | .list item max, place, .list items =>
    if items.length ≤ max then checkItems (fun i v => item.check (place.item i) v) 0 items
    else .error (.listTooLong items.length max)
  | .container name fields, _, .container values =>
    if values.length = fields.length then checkFields name fields values
    else .error (.mismatch (.fieldCount name fields.length values.length))
  | kind, place, value => .error (.mismatch (.value place (.shape value.shape kind.shape)))

/-- Refuses values that do not fit the fields of the container `owner`. -/
def checkFields (owner : String) : List (Field Kind) → List Value → Except CodecError Unit
  | ⟨key, kind, _⟩ :: fields, value :: values => do
    kind.check ⟨owner, key, []⟩ value
    checkFields owner fields values
  | _, _ => .ok ()

end

end Kind

namespace Schema

/-- Refuses a record that does not fit the schema. -/
def check (s : Schema) (r : Record) : Except CodecError Unit :=
  if r.length = s.fields.length then Kind.checkFields s.name s.fields r
  else .error (.mismatch (.fieldCount s.name s.fields.length r.length))

/-- A record that fits the schema. -/
def Conforms (s : Schema) (r : Record) : Prop := s.check r = .ok ()

end Schema

end SszRecord

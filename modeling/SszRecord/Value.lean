/-
Values and records.

A value carries data and nothing else; which widths, lengths and maxima it has to keep is said by
a kind.  A record is the list of the values of a container, in the order of its fields.
-/
import SszRecord.UInt256

namespace SszRecord

/-- The data of one field. -/
inductive Value where
  | bytes (b : Bytes)
  | uint (u : UInt256)
  | vector (items : List Value)
  | list (items : List Value)
  | container (values : List Value)
deriving Repr

/-- The values of a container, in the order of its fields. -/
abbrev Record := List Value

instance : Inhabited Value := ⟨.bytes []⟩

/-- The name of a value's shape. -/
def Value.shape : Value → String
  | .bytes _ => "bytes"
  | .uint _ => "uint"
  | .vector _ => "vector"
  | .list _ => "list"
  | .container _ => "container"

/-- The value of a word. -/
def Value.ofWord (w : UInt64) : Value := .uint (UInt256.ofWord w)

end SszRecord

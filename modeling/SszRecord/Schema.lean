/-
Kinds, fields and schemas.

A schema names a container and lists its fields in order; the order fixes the wire layout, the
leaves of the hash tree and the keys of the text forms.  A field has a key, a kind and a policy
for texts that leave it out.

Some kinds take the same number of bytes for every value.  `Kind.isFixedSize` decides which, and
`Kind.fixedSize?` computes the number; all other kinds take an offset slot in the region around
them.  Sizes are exact numbers here, and may be too large for a word: `Kind.sizeIn` calculates them
in words.
-/

namespace SszRecord

/-- What reading a text does with a field that is absent. -/
inductive AbsentPolicy where
  | reject
  | empty
deriving DecidableEq, Repr, Inhabited

/-- A field of a container. -/
structure Field (κ : Type) where
  key : String
  kind : κ
  absent : AbsentPolicy := .reject
deriving Repr

/-- What a field holds. -/
inductive Kind where
  /-- Exactly `size` bytes. -/
  | bytes (size : Nat)
  /-- An unsigned integer of `width` bytes. -/
  | uint (width : Nat)
  /-- At most `max` bytes. -/
  | byteList (max : Nat)
  /-- Exactly `count` items. -/
  | vector (item : Kind) (count : Nat)
  /-- At most `max` items. -/
  | list (item : Kind) (max : Nat)
  /-- A container with a name and fields. -/
  | container (name : String) (fields : List (Field Kind))
deriving Repr

instance : Inhabited Kind := ⟨.bytes 0⟩

/-- A container by itself: the type of a record. -/
structure Schema where
  name : String
  fields : List (Field Kind) := []
deriving Repr

/-- The kind of a field that holds a record of the schema. -/
def Schema.kind (s : Schema) : Kind := .container s.name s.fields

/-- The size of an offset slot. -/
def offsetSize : Nat := 4

namespace Kind

/-- The name of a kind's shape. -/
def shape : Kind → String
  | .bytes _ => "fixed bytes"
  | .uint _ => "uint"
  | .byteList _ => "variable bytes"
  | .vector _ _ => "vector"
  | .list _ _ => "list"
  | .container _ _ => "container"

/-- Whether items of the kind are packed into chunks; only integers are. -/
def isBasic : Kind → Bool
  | .uint _ => true
  | _ => false

mutual

/-- Whether every value of the kind takes the same number of bytes. -/
def isFixedSize : Kind → Bool
  | .bytes _ => true
  | .uint _ => true
  | .byteList _ => false
  | .vector item _ => item.isFixedSize
  | .list _ _ => false
  | .container _ fields => allFixedSize fields

/-- Whether all fields have kinds of fixed size. -/
def allFixedSize : List (Field Kind) → Bool
  | [] => true
  | ⟨_, kind, _⟩ :: rest => kind.isFixedSize && allFixedSize rest

end

mutual

/-- The number of bytes of every value of the kind, if there is one such number. -/
def fixedSize? : Kind → Option Nat
  | .bytes n => some n
  | .uint w => some w
  | .byteList _ => none
  | .vector item n => (fixedSize? item).map (· * n)
  | .list _ _ => none
  | .container _ fields => if allFixedSize fields then some (fixedPartSize fields) else none

/-- The size of the inline part of a container: values of fixed size and offset slots. -/
def fixedPartSize : List (Field Kind) → Nat
  | [] => 0
  | ⟨_, kind, _⟩ :: rest => (fixedSize? kind).getD offsetSize + fixedPartSize rest

end

/-- The number of bytes that a value takes in the inline part of the region around it. -/
def inlineSize (k : Kind) : Nat := k.fixedSize?.getD offsetSize

end Kind

namespace Schema

def isFixedSize (s : Schema) : Bool := Kind.allFixedSize s.fields

def fixedPartSize (s : Schema) : Nat := Kind.fixedPartSize s.fields

def fixedSize? (s : Schema) : Option Nat := if s.isFixedSize then some s.fixedPartSize else none

end Schema

end SszRecord

/-
Places inside a record, as messages name them.

A place is a field of a container and a way down through its sequences.  Its path names owner and
key (`Owner.some_key[2][0]`); its label leaves the owner out and shows underscores as spaces
(`some key[2][0]`).
-/

namespace SszRecord

/-- The label of a key. -/
def labelOfKey (key : String) : String := key.map fun c => if c = '_' then ' ' else c

/-- A field of a container and the indices of the items entered since, the last one first. -/
structure Place where
  owner : String
  key : String
  indices : List Nat := []
deriving DecidableEq, Repr

namespace Place

/-- The item at `index` of the sequence at a place. -/
def item (p : Place) (index : Nat) : Place := { p with indices := index :: p.indices }

/-- The indices in brackets, the first one entered in front. -/
def brackets (p : Place) : String := String.join (p.indices.reverse.map fun i => s!"[{i}]")

/-- The field of a place, without the indices. -/
def field (p : Place) : String := p.owner ++ "." ++ p.key

def path (p : Place) : String := p.field ++ p.brackets

def label (p : Place) : String := labelOfKey p.key ++ p.brackets

end Place

end SszRecord

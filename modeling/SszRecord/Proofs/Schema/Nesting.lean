/-
Nesting of kinds.

How deep a value can be nested is known from its kind alone: `Kind.nesting` counts the sequences
and containers on the deepest path into a kind, whether or not a value has items there.  The fields
of a schema are at level zero, so `Schema.nesting` counts what lies below the record.
-/
import Mathlib
import SszRecord.Schema

namespace SszRecord

namespace Kind

mutual

/-- The number of sequences and containers on the deepest path into a kind, itself included. -/
def nesting : Kind → Nat
  | .bytes _ => 0
  | .uint _ => 0
  | .byteList _ => 0
  | .vector item _ => item.nesting + 1
  | .list item _ => item.nesting + 1
  | .container _ fields => deepest fields + 1

/-- The nesting of the deepest kind of some fields. -/
def deepest : List (Field Kind) → Nat
  | [] => 0
  | ⟨_, kind, _⟩ :: fields => max kind.nesting (deepest fields)

end

theorem nesting_le_deepest {fields : List (Field Kind)} {f : Field Kind} (hf : f ∈ fields) :
    f.kind.nesting ≤ deepest fields := by
  induction fields with
  | nil => cases hf
  | cons g fields ih =>
    rw [deepest]
    rcases List.mem_cons.1 hf with rfl | hf
    · exact le_max_left _ _
    · exact le_max_of_le_right (ih hf)

end Kind

/-- The number of levels that a record of the schema can have below it. -/
def Schema.nesting (s : Schema) : Nat := Kind.deepest s.fields

end SszRecord

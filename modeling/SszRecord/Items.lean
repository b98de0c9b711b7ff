/-
Working through the items of a sequence.

An operation on items stops at the first item that fails.
-/
import SszRecord.Error

namespace SszRecord

/-- The answers of an operation on every item. -/
def mapItems {α β : Type} (f : α → Except CodecError β) : List α → Except CodecError (List β)
  | [] => .ok []
  | item :: rest => do
    let b ← f item
    let bs ← mapItems f rest
    return b :: bs

/-- Runs a check on every item, with its index; the first one has index `i`. -/
def checkItems {α : Type} (check : Nat → α → Except CodecError Unit) :
    (i : Nat) → List α → Except CodecError Unit
  | _, [] => .ok ()
  | i, item :: rest => do
    check i item
    checkItems check (i + 1) rest

end SszRecord

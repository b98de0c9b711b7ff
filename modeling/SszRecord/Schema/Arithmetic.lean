/-
Sizes in an arithmetic.

The size of a kind is a product or a sum of the numbers that a schema declares.  Schema.lean says
which; here sizes are calculated in an arithmetic, which may not have all of them: words wrap
around where they overflow, or break the calculation off.
-/
import SszRecord.Schema

namespace SszRecord

/-- A way to calculate with sizes.  A sum or product may break off. -/
structure Arithmetic (α : Type) where
  ofNat : Nat → α
  add : α → α → Option α
  mul : α → α → Option α

namespace Arithmetic

/-- Numbers of any size. -/
def exact : Arithmetic Nat where
  ofNat n := n
  add a b := some (a + b)
  mul a b := some (a * b)

/-- Words that wrap around. -/
def wrapping : Arithmetic UInt64 where
  ofNat := UInt64.ofNat
  add a b := some (a + b)
  mul a b := some (a * b)

/-- Words with sums and products that break off where they do not fit. -/
def checked : Arithmetic UInt64 where
  ofNat := UInt64.ofNat
  add a b := if a.toNat + b.toNat < UInt64.size then some (a + b) else none
  mul a b := if a.toNat * b.toNat < UInt64.size then some (a * b) else none

end Arithmetic

namespace Kind

section Calculation

variable {α : Type} (arith : Arithmetic α)

/-- What a value takes in the inline part of a region: its fixed size, or a slot. -/
def slotIn (size : Option α) : α := size.getD (arith.ofNat offsetSize)

mutual

/-- The fixed size of a kind, if it has one, calculated in an arithmetic. -/
def sizeIn : Kind → Option (Option α)
  | .bytes n => some (some (arith.ofNat n))
  | .uint w => some (some (arith.ofNat w))
  | .byteList _ => some none
  | .vector item n => do (← sizeIn item).mapM fun size => arith.mul size (arith.ofNat n)
  | .list _ _ => some none
  | .container _ fields =>
    if allFixedSize fields then (addSlots (arith.ofNat 0) fields).map some else some none

/-- A sum and what fields take in the inline part, added one by one. -/
def addSlots (sum : α) : List (Field Kind) → Option α
  | [] => some sum
  | ⟨_, kind, _⟩ :: fields => do
    let slot ← (sizeIn kind).map (slotIn arith)
    let sum ← arith.add sum slot
    addSlots sum fields

end

end Calculation

end Kind

end SszRecord

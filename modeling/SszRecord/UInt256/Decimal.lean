/-
Decimal text of 256-bit integers.

Reading takes the digits from left to right and stops at the first one that cannot be added, so
a number that has grown too large is reported even if a bad character follows.  Printing divides
off nineteen digits at a time and fills every group but the leading one with zeros.
-/
import SszRecord.UInt256

namespace SszRecord.UInt256

/-- Why a text is no decimal integer. -/
inductive DecimalFault where
  | empty
  | badDigit
  | overflow
deriving DecidableEq, Repr

def DecimalFault.message : DecimalFault → String
  | .empty => "cannot parse integer from empty string"
  | .badDigit => "invalid digit found in string"
  | .overflow => "number too large to fit in target type"

/-! ### Reading -/

/-- Ten times an integer and a digit more, unless it does not fit. -/
def pushDigit? (u : UInt256) (digit : Nat) : Option UInt256 := do
  let shifted ← u.mulWord? 10
  shifted.addWord? (UInt64.ofNat digit)

/-- Reads digits behind those that make up `u`. -/
def readDigits (u : UInt256) : List Char → Except DecimalFault UInt256
  | [] => .ok u
  | c :: rest =>
    if c.isDigit then
      match u.pushDigit? (c.toNat - '0'.toNat) with
      | some v => readDigits v rest
      | none => .error .overflow
    else .error .badDigit

/-- Reads a decimal integer; leading zeros are allowed, a sign is not. -/
def ofDecimal (s : String) : Except DecimalFault UInt256 :=
  match s.toList with
  | [] => .error .empty
  | cs => readDigits zero cs

/-- Reads a decimal integer that has to fit in `width` bytes. -/
def ofDecimalWidth (width : Nat) (s : String) : Except DecimalFault UInt256 := do
  let u ← ofDecimal s
  if u.FitsWidth width then return u else throw .overflow

/-! ### Printing -/

/-- The groups of nineteen digits of an integer, the least significant first. -/
def groups (u : UInt256) : List Nat :=
  if _h : u.isZero = true then [] else u.splitDecimal.2 :: groups u.splitDecimal.1
termination_by u.toNat
decreasing_by
  have hne : u.toNat ≠ 0 := fun h0 => _h ((isZero_iff u).2 h0)
  rw [(toNat_splitDecimal u).1]
  exact Nat.div_lt_self (Nat.pos_of_ne_zero hne) (by decide)

/-- Nineteen digits of a group, zeros in front. -/
def paddedGroup (n : Nat) : List Char :=
  let digits := Nat.toDigits 10 n
  List.replicate (19 - digits.length) '0' ++ digits

/-- The digits of the groups, the most significant first and without zeros in front. -/
def joinGroups : List Nat → List Char
  | [] => []
  | top :: rest => Nat.toDigits 10 top ++ rest.flatMap paddedGroup

/-- The decimal digits of an integer. -/
def decimalDigits (u : UInt256) : List Char :=
  match u.toWord? with
  | some w => Nat.toDigits 10 w.toNat
  | none => joinGroups u.groups.reverse

/-- The decimal text of an integer. -/
def toDecimal (u : UInt256) : String := String.ofList u.decimalDigits

instance : ToString UInt256 := ⟨toDecimal⟩

end SszRecord.UInt256

/-
Hexadecimal text of bytes.

Writing uses two lowercase digits a byte and the mark `0x`; reading takes digits of either case
and does not ask for the mark.  Reading works on the bytes of the text, so a position is a byte
position and the character reported is one byte.

* `value?_digit`: each digit is read back as its value;
* `decode_encode`: reading undoes writing.
-/
import SszRecord.Bytes

namespace SszRecord.Hex

/-- Why a text is no hexadecimal byte string. -/
inductive Fault where
  | oddLength
  | badDigit (byte : UInt8) (position : Nat)
deriving DecidableEq, Repr

/-- The lowercase digit of a value below sixteen. -/
def digit (n : Nat) : UInt8 := UInt8.ofNat (if n < 10 then 48 + n else 87 + n)

/-- The value of a digit of either case. -/
def value? (c : UInt8) : Option Nat :=
  let n := c.toNat
  if 48 ≤ n ∧ n ≤ 57 then some (n - 48)
  else if 97 ≤ n ∧ n ≤ 102 then some (n - 87)
  else if 65 ≤ n ∧ n ≤ 70 then some (n - 55)
  else none

/-- The two digits of a byte, the higher one first. -/
def digits (b : UInt8) : Bytes := [digit (b.toNat / 16), digit (b.toNat % 16)]

/-- The digits of a byte string. -/
def encode (b : Bytes) : Bytes := b.flatMap digits

/-- Reads one digit; `position` is where it stands. -/
def readDigit (position : Nat) (c : UInt8) : Except Fault Nat :=
  match value? c with
  | some v => .ok v
  | none => .error (.badDigit c position)

/-- Reads pairs of digits, the first of them at `position`. -/
def readPairs (position : Nat) : Bytes → Except Fault Bytes
  | high :: low :: rest => do
    let h ← readDigit position high
    let l ← readDigit (position + 1) low
    let tail ← readPairs (position + 2) rest
    return UInt8.ofNat (16 * h + l) :: tail
  | _ => .ok []

/-- Reads a digit string; an odd number of bytes is refused before any of them is looked at. -/
def decode (text : Bytes) : Except Fault Bytes :=
  if text.length % 2 = 0 then readPairs 0 text else .error .oddLength

/-- A digit string without its mark, if it has one. -/
def stripMark : Bytes → Bytes
  | 48 :: 120 :: rest => rest
  | text => text

/-- The text of a byte string: the mark `0x` and lowercase digits. -/
def toText (b : Bytes) : String :=
  "0x" ++ String.ofList ((encode b).map fun c => Char.ofNat c.toNat)

/-- Reads hexadecimal text with or without the mark. -/
def ofText (s : String) : Except Fault Bytes := decode (stripMark (Bytes.ofText s))

/-! ### Reading back -/

theorem value?_digit : ∀ n, n < 16 → value? (digit n) = some n := by decide

theorem readPairs_encode (position : Nat) (b : Bytes) : readPairs position (encode b) = .ok b := by
  induction b generalizing position with
  | nil => rfl
  | cons x rest ih =>
    have hx := x.toNat_lt
    have hhigh := value?_digit (x.toNat / 16) (by omega)
    have hlow := value?_digit (x.toNat % 16) (by omega)
    have hjoin : UInt8.ofNat (16 * (x.toNat / 16) + x.toNat % 16) = x := by
      rw [Nat.div_add_mod, UInt8.ofNat_toNat]
    simp only [encode, List.flatMap_cons, digits, List.cons_append, List.nil_append, readPairs,
      readDigit, hhigh, hlow]
    have htail := ih (position + 2)
    simp only [encode] at htail
    simp only [htail, bind, Except.bind, pure, Except.pure, hjoin]

theorem length_encode (b : Bytes) : (encode b).length = 2 * b.length := by
  induction b with
  | nil => rfl
  | cons x rest ih =>
    simp only [encode, List.flatMap_cons, List.length_append, List.length_cons] at *
    rw [ih]
    simp only [digits, List.length_cons, List.length_nil]
    omega

theorem decode_encode (b : Bytes) : decode (encode b) = .ok b := by
  simp [decode, length_encode, readPairs_encode]

end SszRecord.Hex

/-
Bytes and byte vectors.

A byte string is a list of bytes; a byte vector is a byte string of a known length.  Natural
numbers are written little-endian at a width, the least significant byte first.

* `length_ofNat`: the form of width `w` has `w` bytes;
* `ofNat_toNat`: every byte string is the form of its own number, at its own length.
-/

namespace SszRecord

/-- A byte string. -/
abbrev Bytes := List UInt8

namespace Bytes

/-- The little-endian form of `n` in exactly `w` bytes; higher bytes are dropped. -/
def ofNat : Nat → Nat → Bytes
  | 0, _ => []
  | w + 1, n => UInt8.ofNat n :: ofNat w (n / 256)

/-- The number a byte string denotes when its first byte is the least significant. -/
def toNat : Bytes → Nat
  | [] => 0
  | b :: rest => b.toNat + 256 * toNat rest

@[simp] theorem length_ofNat (w n : Nat) : (ofNat w n).length = w := by
  induction w generalizing n with
  | zero => rfl
  | succ w ih => simp [ofNat, ih]

theorem ofNat_toNat (b : Bytes) : ofNat b.length (toNat b) = b := by
  induction b with
  | nil => rfl
  | cons b rest ih =>
    have hb := b.toNat_lt
    have hdiv : (b.toNat + 256 * toNat rest) / 256 = toNat rest := by omega
    have hmod : UInt8.ofNat (b.toNat + 256 * toNat rest) = b := by
      apply UInt8.toNat_inj.1
      rw [UInt8.toNat_ofNat']
      omega
    simp only [List.length_cons, ofNat, toNat, hdiv, hmod, ih]

/-- The UTF-8 bytes of a text. -/
def ofText (s : String) : Bytes := s.toUTF8.data.toList

/-- The first `count` pieces of `size` bytes. -/
def pieces (size : Nat) : (count : Nat) → Bytes → List Bytes
  | 0, _ => []
  | count + 1, b => b.take size :: pieces size count (b.drop size)

end Bytes

/-- A byte string of exactly `n` bytes. -/
structure ByteVector (n : Nat) where
  bytes : Bytes
  length_bytes : bytes.length = n
deriving DecidableEq

namespace ByteVector

@[ext] theorem ext {n : Nat} {a b : ByteVector n} (h : a.bytes = b.bytes) : a = b := by
  cases a
  cases b
  cases h
  rfl

/-- The vector of `n` zero bytes. -/
def zero (n : Nat) : ByteVector n := ⟨List.replicate n 0, List.length_replicate⟩

instance {n : Nat} : Inhabited (ByteVector n) := ⟨zero n⟩

/-- A byte string as a vector, if it has the right length. -/
def ofBytes? (n : Nat) (b : Bytes) : Option (ByteVector n) :=
  if h : b.length = n then some ⟨b, h⟩ else none

/-- The first `n` bytes of a byte string, filled up with zero bytes. -/
def padded (n : Nat) (b : Bytes) : ByteVector n :=
  ⟨b.take n ++ List.replicate (n - b.length) 0, by simp; omega⟩

/-- The little-endian form of a number in `n` bytes. -/
def ofNat (n value : Nat) : ByteVector n := ⟨Bytes.ofNat n value, Bytes.length_ofNat n value⟩

@[simp] theorem ofBytes?_bytes {n : Nat} (v : ByteVector n) : ofBytes? n v.bytes = some v := by
  simp [ofBytes?, v.length_bytes]

end ByteVector

end SszRecord

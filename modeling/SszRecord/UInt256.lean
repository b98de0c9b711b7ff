/-
Unsigned integers of 256 bits.

An integer is kept as four words of 64 bits, the least significant first.  The operations work
word by word and hand a carry on; `toNat` is the number that an integer denotes.

* `toNat_lt`: every integer is below `size`, which is `2 ^ 256`;
* `toNat_ofNat`: the integer of a number denotes it up to multiples of `size`;
* `toNat_splitDecimal`: the long division by `10 ^ 19` is exact.
-/
import SszRecord.Bytes

namespace SszRecord

/-- A 256-bit unsigned integer, `w0` being its least significant word. -/
structure UInt256 where
  w0 : UInt64
  w1 : UInt64
  w2 : UInt64
  w3 : UInt64
deriving DecidableEq, Repr

namespace UInt256

/-- The number of integers, `2 ^ 256`. -/
abbrev size : Nat :=
  115792089237316195423570985008687907853269984665640564039457584007913129639936

/-- The number an integer denotes. -/
def toNat (u : UInt256) : Nat :=
  u.w0.toNat + UInt64.size *
    (u.w1.toNat + UInt64.size * (u.w2.toNat + UInt64.size * u.w3.toNat))

/-- The integer with the lowest 256 bits of a number. -/
def ofNat (n : Nat) : UInt256 :=
  ⟨UInt64.ofNat n, UInt64.ofNat (n / UInt64.size), UInt64.ofNat (n / UInt64.size / UInt64.size),
    UInt64.ofNat (n / UInt64.size / UInt64.size / UInt64.size)⟩

/-- The integer of one word. -/
def ofWord (w : UInt64) : UInt256 := ⟨w, 0, 0, 0⟩

def zero : UInt256 := ofWord 0

instance : Inhabited UInt256 := ⟨zero⟩

/-- Whether all four words are zero. -/
def isZero (u : UInt256) : Bool := u.w0 == 0 && u.w1 == 0 && u.w2 == 0 && u.w3 == 0

/-- The words are compared in turn, beginning with the least significant one. -/
def compareWords (a b : UInt256) : Ordering :=
  (compare a.w0 b.w0).then
    ((compare a.w1 b.w1).then ((compare a.w2 b.w2).then (compare a.w3 b.w3)))

instance : Ord UInt256 := ⟨compareWords⟩

/-! ### Bytes and widths -/

/-- The 32 little-endian bytes of an integer. -/
def toBytes (u : UInt256) : Bytes :=
  Bytes.ofNat 8 u.w0.toNat ++ Bytes.ofNat 8 u.w1.toNat ++ Bytes.ofNat 8 u.w2.toNat ++
    Bytes.ofNat 8 u.w3.toNat

@[simp] theorem length_toBytes (u : UInt256) : u.toBytes.length = 32 := by simp [toBytes]

/-- The integer of at most 32 little-endian bytes; missing high bytes are zero. -/
def ofBytes? (b : Bytes) : Option UInt256 :=
  if 32 < b.length then none
  else some ⟨word b, word (b.drop 8), word (b.drop 16), word (b.drop 24)⟩
where
  /-- The word of the first eight bytes. -/
  word (b : Bytes) : UInt64 := UInt64.ofNat (Bytes.toNat (b.take 8))

/-- The number of bits of a word. -/
def wordBits (w : UInt64) : Nat := if w = 0 then 0 else w.toNat.log2 + 1

/-- The number of bits needed to write an integer; none for zero. -/
def bits (u : UInt256) : Nat :=
  if u.w3 ≠ 0 then 192 + wordBits u.w3
  else if u.w2 ≠ 0 then 128 + wordBits u.w2
  else if u.w1 ≠ 0 then 64 + wordBits u.w1
  else wordBits u.w0

/-- Whether an integer can be written in `width` bytes. -/
def FitsWidth (u : UInt256) (width : Nat) : Prop := 32 ≤ width ∨ u.bits ≤ width * 8

instance (u : UInt256) (width : Nat) : Decidable (u.FitsWidth width) :=
  inferInstanceAs (Decidable (_ ∨ _))

/-- The one word of an integer whose higher words are zero. -/
def toWord? (u : UInt256) : Option UInt64 :=
  if u.w1 = 0 ∧ u.w2 = 0 ∧ u.w3 = 0 then some u.w0 else none

/-! ### Checked arithmetic -/

/-- One column of a sum or product: the word kept and the carry handed on. -/
def column (sum : Nat) : UInt64 × Nat := (UInt64.ofNat sum, sum / UInt64.size)

/-- The product with a word, unless it does not fit. -/
def mulWord? (u : UInt256) (w : UInt64) : Option UInt256 :=
  let (r0, c0) := column (u.w0.toNat * w.toNat)
  let (r1, c1) := column (u.w1.toNat * w.toNat + c0)
  let (r2, c2) := column (u.w2.toNat * w.toNat + c1)
  let (r3, c3) := column (u.w3.toNat * w.toNat + c2)
  if c3 = 0 then some ⟨r0, r1, r2, r3⟩ else none

/-- The sum with a word, unless it does not fit. -/
def addWord? (u : UInt256) (w : UInt64) : Option UInt256 :=
  let (r0, c0) := column (u.w0.toNat + w.toNat)
  let (r1, c1) := column (u.w1.toNat + c0)
  let (r2, c2) := column (u.w2.toNat + c1)
  let (r3, c3) := column (u.w3.toNat + c2)
  if c3 = 0 then some ⟨r0, r1, r2, r3⟩ else none

/-- One step of a calculation with words. -/
inductive Step where
  | mul (w : UInt64)
  | add (w : UInt64)
deriving DecidableEq, Repr

/-- The result of a step, unless it does not fit. -/
def Step.run? (u : UInt256) : Step → Option UInt256
  | .mul w => u.mulWord? w
  | .add w => u.addWord? w

/-- The result of every step of a calculation; a step that does not fit is skipped. -/
def trace (u : UInt256) : List Step → List (Option UInt256)
  | [] => []
  | s :: rest => s.run? u :: trace ((s.run? u).getD u) rest

/-- Nineteen decimal digits: the largest power of ten below a word. -/
def decimalBase : Nat := 10000000000000000000

/-- Long division by `decimalBase`, from the most significant word down. -/
def splitDecimal (u : UInt256) : UInt256 × Nat :=
  let n3 := u.w3.toNat
  let n2 := UInt64.size * (n3 % decimalBase) + u.w2.toNat
  let n1 := UInt64.size * (n2 % decimalBase) + u.w1.toNat
  let n0 := UInt64.size * (n1 % decimalBase) + u.w0.toNat
  (⟨UInt64.ofNat (n0 / decimalBase), UInt64.ofNat (n1 / decimalBase),
    UInt64.ofNat (n2 / decimalBase), UInt64.ofNat (n3 / decimalBase)⟩, n0 % decimalBase)

/-! ### The number denoted -/

theorem toNat_lt (u : UInt256) : u.toNat < size := by
  have h0 : u.w0.toNat < UInt64.size := u.w0.toNat_lt
  have h1 : u.w1.toNat < UInt64.size := u.w1.toNat_lt
  have h2 : u.w2.toNat < UInt64.size := u.w2.toNat_lt
  have h3 : u.w3.toNat < UInt64.size := u.w3.toNat_lt
  simp only [toNat, size, UInt64.size] at *
  omega

theorem toNat_ofNat (n : Nat) : (ofNat n).toNat = n % size := by
  simp only [toNat, ofNat, UInt64.toNat_ofNat', size, UInt64.size]
  omega

theorem ofNat_toNat (u : UInt256) : ofNat u.toNat = u := by
  obtain ⟨w0, w1, w2, w3⟩ := u
  have h0 := w0.toNat_lt
  have h1 := w1.toNat_lt
  have h2 := w2.toNat_lt
  have h3 := w3.toNat_lt
  simp only [ofNat, toNat, mk.injEq, ← UInt64.toNat_inj, UInt64.toNat_ofNat', UInt64.size]
  omega

theorem toNat_inj {a b : UInt256} : a.toNat = b.toNat ↔ a = b :=
  ⟨fun h => by rw [← ofNat_toNat a, ← ofNat_toNat b, h], fun h => by rw [h]⟩

theorem isZero_iff (u : UInt256) : u.isZero = true ↔ u.toNat = 0 := by
  simp only [isZero, Bool.and_eq_true, beq_iff_eq, ← UInt64.toNat_inj, UInt64.toNat_zero, toNat,
    UInt64.size]
  omega

/-- A column of the long division has a quotient of one word. -/
theorem quotient_lt {c n : Nat} (hc : c < decimalBase) (hn : n < UInt64.size) :
    (UInt64.size * c + n) / decimalBase < UInt64.size := by
  simp only [decimalBase, UInt64.size] at *
  omega

/-- Columns divided in turn make up the division of the whole number. -/
theorem quotient_columns {n0 n1 n2 n3 q0 q1 q2 q3 r0 r1 r2 r3 : Nat}
    (e3 : decimalBase * q3 + r3 = n3)
    (e2 : decimalBase * q2 + r2 = UInt64.size * r3 + n2)
    (e1 : decimalBase * q1 + r1 = UInt64.size * r2 + n1)
    (e0 : decimalBase * q0 + r0 = UInt64.size * r1 + n0)
    (h0 : r0 < decimalBase) :
    q0 + UInt64.size * (q1 + UInt64.size * (q2 + UInt64.size * q3)) =
        (n0 + UInt64.size * (n1 + UInt64.size * (n2 + UInt64.size * n3))) / decimalBase ∧
      r0 = (n0 + UInt64.size * (n1 + UInt64.size * (n2 + UInt64.size * n3))) % decimalBase := by
  simp only [decimalBase, UInt64.size] at *
  omega

/-- The division is exact, and its remainder has at most nineteen digits. -/
theorem toNat_splitDecimal (u : UInt256) :
    u.splitDecimal.1.toNat = u.toNat / decimalBase ∧
      u.splitDecimal.2 = u.toNat % decimalBase := by
  have rem (n : Nat) : n % decimalBase < decimalBase := Nat.mod_lt _ (by decide)
  have word {n : Nat} (h : n < UInt64.size) : (UInt64.ofNat n).toNat = n := by
    rw [UInt64.toNat_ofNat']
    exact Nat.mod_eq_of_lt h
  simp only [splitDecimal, toNat]
  rw [word (quotient_lt (rem _) u.w0.toNat_lt), word (quotient_lt (rem _) u.w1.toNat_lt),
    word (quotient_lt (rem _) u.w2.toNat_lt),
    word (Nat.lt_of_le_of_lt (Nat.div_le_self _ _) u.w3.toNat_lt)]
  exact quotient_columns (Nat.div_add_mod _ _) (Nat.div_add_mod _ _) (Nat.div_add_mod _ _)
    (Nat.div_add_mod _ _) (rem _)

end UInt256

end SszRecord

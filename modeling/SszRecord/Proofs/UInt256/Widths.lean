/-
Integers at a width.

An integer is written in `w` bytes by cutting its 32 bytes off, whatever it is; what is cut off is
lost unless the integer fits the width.  Any string of at most 32 bytes is read as an integer, bytes
that are missing at its end being zeros.

* `exists_ofBytes?_take` : cutting off keeps an integer up to multiples of `256 ^ w`;
* `toBytes_of_ofBytes` : an integer that has been read is written with zeros behind its bytes;
* `widths_exact` : widths, bytes and numbers agree.
-/
import Mathlib
import SszRecord.Proofs.UInt256.Bytes

namespace SszRecord

namespace Bytes

/-- The number of a byte string is the one with its bytes as digits, the lowest in front. -/
theorem toNat_eq_ofDigits (b : Bytes) : toNat b = Nat.ofDigits 256 (b.map UInt8.toNat) := by
  induction b with
  | nil => rfl
  | cons x b ih =>
    rw [toNat, ih, List.map_cons, Nat.ofDigits_cons]

theorem ofNat_zero (w : Nat) : ofNat w 0 = List.replicate w 0 := by
  induction w with
  | zero => rfl
  | succ w ih =>
    rw [ofNat, Nat.zero_div, ih, List.replicate_succ]
    rfl

/-- A byte string is the form of its number at any greater length, but for zeros at its end. -/
theorem ofNat_toNat_of_le {b : Bytes} {w : Nat} (h : b.length ≤ w) :
    ofNat w (toNat b) = b ++ List.replicate (w - b.length) 0 := by
  obtain ⟨k, rfl⟩ := Nat.exists_eq_add_of_le h
  rw [ofNat_add, ofNat_toNat, Nat.div_eq_of_lt (toNat_lt b), ofNat_zero, Nat.add_sub_cancel_left]

end Bytes

namespace UInt256

theorem ofBytes?_eq_none {b : Bytes} : ofBytes? b = none ↔ 32 < b.length := by
  rw [ofBytes?]
  split
  · rename_i h
    exact iff_of_true rfl h
  · rename_i h
    exact iff_of_false (Option.some_ne_none _) h

/-! ### Cutting off -/

theorem toNat_take_toBytes (u : UInt256) (w : Nat) :
    Bytes.toNat (u.toBytes.take w) = u.toNat % 256 ^ w := by
  rcases Nat.le_total w 32 with hw | hw
  · rw [take_toBytes hw, Bytes.toNat_ofNat]
  · -- nothing is cut off, and the integer is below the power anyway
    have hbytes : u.toNat < 256 ^ 32 := u.toNat_lt
    have hwidth : u.toNat < 256 ^ w := (fitsWidth_iff u w).1 (Or.inl hw)
    rw [List.take_of_length_le (by rwa [length_toBytes]), toBytes_eq, Bytes.toNat_ofNat,
      Nat.mod_eq_of_lt hbytes, Nat.mod_eq_of_lt hwidth]

/-- What is left of an integer in its first `w` bytes is the integer exactly if it fits them. -/
theorem exists_ofBytes?_take (u : UInt256) (w : Nat) :
    ∃ v, ofBytes? (u.toBytes.take w) = some v ∧ v.toNat = u.toNat % 256 ^ w ∧
      (v = u ↔ u.FitsWidth w) := by
  have hlen : (u.toBytes.take w).length ≤ 32 := by
    rw [← length_toBytes u]
    exact List.length_take_le' w _
  have hvalue : (ofNat (Bytes.toNat (u.toBytes.take w))).toNat = u.toNat % 256 ^ w := by
    rw [toNat_ofBytes hlen, toNat_take_toBytes]
  refine ⟨_, ofBytes?_eq hlen, hvalue, ?_⟩
  rw [← toNat_inj, hvalue, fitsWidth_iff, Nat.mod_eq_iff_lt (Nat.pow_pos (by decide)).ne']

/-! ### Filling up -/

/-- An integer that has been read fits as many bytes as it was read from. -/
theorem fitsWidth_of_ofBytes {b : Bytes} (h : b.length ≤ 32) :
    (ofNat (Bytes.toNat b)).FitsWidth b.length := by
  rw [fitsWidth_iff, toNat_ofBytes h]
  exact Bytes.toNat_lt b

/-- It is written as the bytes that it was read from and zeros behind them. -/
theorem toBytes_of_ofBytes {b : Bytes} (h : b.length ≤ 32) :
    (ofNat (Bytes.toNat b)).toBytes = b ++ List.replicate (32 - b.length) 0 := by
  rw [toBytes_eq, toNat_ofBytes h, Bytes.ofNat_toNat_of_le h]

/-- **Widths and bytes agree.**  An integer fits a width exactly if its number does; its first `w`
bytes are read as what its number leaves modulo `256 ^ w`, which is the integer itself exactly if it
fits; and a byte string is refused exactly if it has more than 32 bytes, and is otherwise read as the
integer with its bytes as digits, which fits its length and is written as its bytes and zeros. -/
theorem widths_exact (u : UInt256) (w : Nat) (b : Bytes) :
    (u.FitsWidth w ↔ u.toNat < 256 ^ w) ∧
      (∃ v, ofBytes? (u.toBytes.take w) = some v ∧ v.toNat = u.toNat % 256 ^ w ∧
        (v = u ↔ u.FitsWidth w)) ∧
      (ofBytes? b = none ↔ 32 < b.length) ∧
      (32 < b.length ∨ ∃ v, ofBytes? b = some v ∧
        v.toNat = Nat.ofDigits 256 (b.map UInt8.toNat) ∧ v.FitsWidth b.length ∧
        v.toBytes = b ++ List.replicate (32 - b.length) 0) := by
  refine ⟨fitsWidth_iff u w, exists_ofBytes?_take u w, ofBytes?_eq_none, ?_⟩
  rcases Nat.lt_or_ge 32 b.length with hlong | hle
  · exact Or.inl hlong
  · refine Or.inr ⟨_, ofBytes?_eq hle, ?_, fitsWidth_of_ofBytes hle, toBytes_of_ofBytes hle⟩
    rw [toNat_ofBytes hle, Bytes.toNat_eq_ofDigits]

/-- A full top byte is lost at the width below. -/
example : ofBytes? ((ofNat 65535).toBytes.take 1) = some (ofNat 255) ∧
    ¬(ofNat 65535).FitsWidth 1 ∧ (ofNat 65535).FitsWidth 2 := by
  decide

end UInt256

end SszRecord

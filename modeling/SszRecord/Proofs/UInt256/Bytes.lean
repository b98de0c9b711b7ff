/-
Bytes and widths of integers.

An integer works on words; its bytes and its width are those of the number it denotes:

* `toBytes_eq` : the bytes are the 32 little-endian bytes of the number;
* `ofBytes?_eq` : reading at most 32 bytes gives the integer of their number;
* `bits_le_iff`, `fitsWidth_iff` : an integer fits `w` bytes exactly when its number is below
  `256 ^ w`.
-/
import Mathlib
import SszRecord.Proofs.Bytes
import SszRecord.UInt256

namespace SszRecord

namespace UInt256

theorem toBytes_eq (u : UInt256) : u.toBytes = Bytes.ofNat 32 u.toNat := by
  have h0 := u.w0.toNat_lt
  have h1 := u.w1.toNat_lt
  have h2 := u.w2.toNat_lt
  -- eight bytes are one word
  have e0 : u.toNat % 256 ^ 8 = u.w0.toNat := by
    simp only [toNat, UInt64.size]
    omega
  have e1 : u.toNat / 256 ^ 8 % 256 ^ 8 = u.w1.toNat := by
    simp only [toNat, UInt64.size]
    omega
  have e2 : u.toNat / 256 ^ 8 / 256 ^ 8 % 256 ^ 8 = u.w2.toNat := by
    simp only [toNat, UInt64.size]
    omega
  have e3 : u.toNat / 256 ^ 8 / 256 ^ 8 / 256 ^ 8 = u.w3.toNat := by
    simp only [toNat, UInt64.size]
    omega
  rw [show 32 = 8 + (8 + (8 + 8)) from rfl, Bytes.ofNat_add, Bytes.ofNat_add, Bytes.ofNat_add,
    e3, ← Bytes.ofNat_mod 8 u.toNat, e0, ← Bytes.ofNat_mod 8 (u.toNat / 256 ^ 8), e1,
    ← Bytes.ofNat_mod 8 (u.toNat / 256 ^ 8 / 256 ^ 8), e2, toBytes, List.append_assoc,
    List.append_assoc]

theorem take_toBytes {w : Nat} (h : w ≤ 32) (u : UInt256) :
    u.toBytes.take w = Bytes.ofNat w u.toNat := by
  rw [toBytes_eq, Bytes.take_ofNat h]

theorem toNat_word (b : Bytes) : (ofBytes?.word b).toNat = Bytes.toNat (b.take 8) := by
  have h := Bytes.toNat_lt (b.take 8)
  have hle : (256 : Nat) ^ (b.take 8).length ≤ 256 ^ 8 :=
    Nat.pow_le_pow_right (by omega) (List.length_take_le 8 b)
  rw [ofBytes?.word, UInt64.toNat_ofNat', Nat.mod_eq_of_lt (by omega)]

/-- A byte string splits into its first eight bytes and the others. -/
theorem toNat_take_drop (b : Bytes) :
    Bytes.toNat b = Bytes.toNat (b.take 8) + UInt64.size * Bytes.toNat (b.drop 8) := by
  by_cases h : 8 ≤ b.length
  · have := Bytes.toNat_append (b.take 8) (b.drop 8)
    rwa [List.take_append_drop, List.length_take, Nat.min_eq_left h] at this
  · rw [List.take_of_length_le (by omega), List.drop_of_length_le (by omega)]
    rfl

theorem ofBytes?_eq {b : Bytes} (h : b.length ≤ 32) :
    ofBytes? b = some (UInt256.ofNat (Bytes.toNat b)) := by
  have hlt : Bytes.toNat b < size :=
    Nat.lt_of_lt_of_le (Bytes.toNat_lt b) (Nat.pow_le_pow_right (by omega) h)
  rw [ofBytes?, if_neg (by omega), Option.some_inj, ← toNat_inj, toNat_ofNat,
    Nat.mod_eq_of_lt hlt, toNat_take_drop b, toNat_take_drop (b.drop 8),
    toNat_take_drop (b.drop 8 |>.drop 8), List.drop_drop, List.drop_drop]
  simp only [toNat, toNat_word]
  rw [List.take_of_length_le (show (b.drop (8 + 16)).length ≤ 8 by simp; omega)]

/-- The integer of at most 32 bytes denotes their number. -/
theorem toNat_ofBytes {b : Bytes} (h : b.length ≤ 32) :
    (UInt256.ofNat (Bytes.toNat b)).toNat = Bytes.toNat b := by
  rw [toNat_ofNat]
  exact Nat.mod_eq_of_lt
    (Nat.lt_of_lt_of_le (Bytes.toNat_lt b) (Nat.pow_le_pow_right (by omega) h))

/-! ### Widths -/

theorem wordBits_le_iff (w : UInt64) (j : Nat) : wordBits w ≤ j ↔ w.toNat < 2 ^ j := by
  rw [wordBits]
  split
  · rename_i h
    subst h
    simp
  · rename_i h
    have hne : w.toNat ≠ 0 := fun h0 => h (UInt64.toNat_inj.1 h0)
    rw [Nat.succ_le_iff, Nat.log2_lt hne]

/-- The bits of a number whose high part is not zero are those of its high part and all below. -/
theorem lt_two_pow_iff {low high k j : Nat} (hlow : low < 2 ^ k) (hhigh : high ≠ 0) :
    low + 2 ^ k * high < 2 ^ j ↔ k ≤ j ∧ high < 2 ^ (j - k) := by
  by_cases hkj : k ≤ j
  · obtain ⟨i, rfl⟩ := Nat.exists_eq_add_of_le hkj
    rw [and_iff_right hkj, Nat.pow_add, Nat.add_sub_cancel_left]
    rw [Nat.mul_comm (2 ^ k) (2 ^ i), ← Nat.div_lt_iff_lt_mul (Nat.two_pow_pos k),
      Nat.add_mul_div_left _ _ (Nat.two_pow_pos k),
      Nat.div_eq_of_lt hlow, Nat.zero_add]
  · have hpow : 2 ^ j ≤ 2 ^ k := Nat.pow_le_pow_right (by omega) (by omega)
    have hmul : 2 ^ k ≤ 2 ^ k * high := Nat.le_mul_of_pos_right _ (Nat.pos_of_ne_zero hhigh)
    exact ⟨fun h => absurd h (by omega), fun h => absurd h.1 hkj⟩

theorem bits_le_iff (u : UInt256) (j : Nat) : u.bits ≤ j ↔ u.toNat < 2 ^ j := by
  have h0 := u.w0.toNat_lt
  have h1 := u.w1.toNat_lt
  have h2 := u.w2.toNat_lt
  have ne {w : UInt64} (h : w ≠ 0) : w.toNat ≠ 0 := fun h0 => h (UInt64.toNat_inj.1 h0)
  have add_le (k : Nat) (w : UInt64) : k + wordBits w ≤ j ↔ k ≤ j ∧ w.toNat < 2 ^ (j - k) := by
    rw [← wordBits_le_iff]
    omega
  rw [bits]
  -- the highest word that is not zero decides
  split
  · rename_i h
    rw [add_le, ← lt_two_pow_iff (show u.w0.toNat + UInt64.size * (u.w1.toNat +
      UInt64.size * u.w2.toNat) < 2 ^ 192 by simp only [UInt64.size]; omega) (ne h)]
    simp only [toNat, UInt64.size]
    congr! 1
    ring
  · rename_i h3
    rw [ne_eq, not_not] at h3
    split
    · rename_i h
      rw [add_le, ← lt_two_pow_iff (show u.w0.toNat + UInt64.size * u.w1.toNat < 2 ^ 128 by
        simp only [UInt64.size]; omega) (ne h)]
      simp only [toNat, UInt64.size, h3, UInt64.toNat_zero]
      congr! 1
      ring
    · rename_i h2
      rw [ne_eq, not_not] at h2
      split
      · rename_i h
        rw [add_le, ← lt_two_pow_iff (show u.w0.toNat < 2 ^ 64 by omega) (ne h)]
        simp only [toNat, UInt64.size, h3, h2, UInt64.toNat_zero]
        congr! 1
      · rename_i h1
        rw [ne_eq, not_not] at h1
        rw [wordBits_le_iff]
        simp only [toNat, h3, h2, h1, UInt64.toNat_zero, Nat.mul_zero, Nat.add_zero]

/-- **Widths are numeric.** -/
theorem fitsWidth_iff (u : UInt256) (w : Nat) : u.FitsWidth w ↔ u.toNat < 256 ^ w := by
  have hpow : (256 : Nat) ^ w = 2 ^ (w * 8) := by rw [Nat.mul_comm, Nat.pow_mul]
  rw [FitsWidth, bits_le_iff, ← hpow, or_iff_right_of_imp]
  intro hw
  exact Nat.lt_of_lt_of_le u.toNat_lt (Nat.pow_le_pow_right (show 0 < 256 by decide) hw)

/-- The integers that fit in eight bytes are the words. -/
theorem fitsWidth_eight {u : UInt256} : u.FitsWidth 8 ↔ ∃ w, ofWord w = u := by
  rw [fitsWidth_iff]
  constructor
  · intro h
    obtain ⟨w0, w1, w2, w3⟩ := u
    have hhigh : w1.toNat = 0 ∧ w2.toNat = 0 ∧ w3.toNat = 0 := by
      simp only [toNat, UInt64.size] at h
      omega
    obtain ⟨h1, h2, h3⟩ := hhigh
    obtain rfl : w1 = 0 := UInt64.toNat_inj.1 h1
    obtain rfl : w2 = 0 := UInt64.toNat_inj.1 h2
    obtain rfl : w3 = 0 := UInt64.toNat_inj.1 h3
    exact ⟨w0, rfl⟩
  · rintro ⟨w, rfl⟩
    exact w.toNat_lt

end UInt256

end SszRecord

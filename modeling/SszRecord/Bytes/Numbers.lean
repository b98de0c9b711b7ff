/-
The numbers of byte strings.

* `toNat_ofNat`: the little-endian form of width `w` keeps a number up to multiples of `256 ^ w`;
* `toNat_lt`: a byte string denotes a number that can be written at its own length.
-/
import Mathlib
import SszRecord.Bytes

namespace SszRecord.Bytes

theorem toNat_ofNat (w n : Nat) : toNat (ofNat w n) = n % 256 ^ w := by
  induction w generalizing n with
  | zero => simp [ofNat, toNat, Nat.mod_one]
  | succ w ih =>
    have step : 256 ^ (w + 1) = 256 * 256 ^ w := by rw [Nat.pow_succ, Nat.mul_comm]
    rw [step, Nat.mod_mul]
    simp only [ofNat, toNat, ih, UInt8.toNat_ofNat']

theorem toNat_lt (b : Bytes) : toNat b < 256 ^ b.length := by
  induction b with
  | nil => simp [toNat]
  | cons b rest ih =>
    have hb := b.toNat_lt
    simp only [toNat, List.length_cons, Nat.pow_succ]
    omega

end SszRecord.Bytes

/-
Byte strings.

* `ofNat_add`, `toNat_append` : the bytes of a number split where its low bytes end;
* `ofNat_inj` : numbers below `256 ^ w` are told apart by their `w` bytes;
* `pieces_flatten`, `flatten_pieces` : strings of one size are found again when they are joined;
* `eq_of_getD` : strings of one length are equal when they agree byte by byte.
-/
import Mathlib
import SszRecord.Bytes.Numbers

namespace SszRecord.Bytes

theorem ofNat_add (a b n : Nat) : ofNat (a + b) n = ofNat a n ++ ofNat b (n / 256 ^ a) := by
  induction a generalizing n with
  | zero => simp [ofNat]
  | succ a ih =>
    rw [Nat.succ_add, ofNat, ofNat, ih, Nat.div_div_eq_div_mul, List.cons_append, Nat.pow_succ']

theorem ofNat_mod (w n : Nat) : ofNat w (n % 256 ^ w) = ofNat w n := by
  have h := ofNat_toNat (ofNat w n)
  rwa [length_ofNat, toNat_ofNat] at h

/-- The low bytes of a number do not depend on how many bytes are written. -/
theorem take_ofNat {k w : Nat} (h : k ≤ w) (n : Nat) : (ofNat w n).take k = ofNat k n := by
  obtain ⟨j, rfl⟩ := Nat.exists_eq_add_of_le h
  rw [ofNat_add]
  exact List.take_left' (length_ofNat k n)

theorem toNat_append (a b : Bytes) : toNat (a ++ b) = toNat a + 256 ^ a.length * toNat b := by
  induction a with
  | nil => simp [toNat]
  | cons x a ih =>
    rw [List.cons_append, toNat, toNat, ih, List.length_cons, Nat.pow_succ']
    ring

theorem ofNat_inj {w a b : Nat} (ha : a < 256 ^ w) (hb : b < 256 ^ w)
    (h : ofNat w a = ofNat w b) : a = b := by
  have := congrArg toNat h
  rwa [toNat_ofNat, toNat_ofNat, Nat.mod_eq_of_lt ha, Nat.mod_eq_of_lt hb] at this

/-! ### Pieces -/

theorem length_pieces (size count : Nat) (b : Bytes) :
    (pieces size count b).length = count := by
  induction count generalizing b with
  | zero => rfl
  | succ count ih => rw [pieces, List.length_cons, ih]

/-- Cutting a string into pieces of one size loses nothing. -/
theorem flatten_pieces {size count : Nat} {b : Bytes} (h : b.length = size * count) :
    (pieces size count b).flatten = b ∧ (pieces size count b).length = count ∧
      ∀ p ∈ pieces size count b, p.length = size := by
  induction count generalizing b with
  | zero => exact ⟨(List.eq_nil_of_length_eq_zero h).symm, rfl, List.forall_mem_nil _⟩
  | succ count ih =>
    rw [Nat.mul_succ] at h
    obtain ⟨hflat, hlen, hsize⟩ := ih (b := b.drop size) (by rw [List.length_drop]; omega)
    rw [pieces, List.flatten_cons, hflat, List.length_cons, hlen]
    refine ⟨List.take_append_drop size b, rfl, List.forall_mem_cons.2 ⟨?_, hsize⟩⟩
    rw [List.length_take]
    omega

/-- And the pieces of strings of one size joined together are these strings. -/
theorem pieces_flatten {size : Nat} {bs : List Bytes} (h : ∀ b ∈ bs, b.length = size) :
    pieces size bs.length bs.flatten = bs := by
  induction bs with
  | nil => rfl
  | cons b bs ih =>
    obtain ⟨hb, hbs⟩ := List.forall_mem_cons.1 h
    rw [List.length_cons, pieces, List.flatten_cons, List.take_left' hb, List.drop_left' hb, ih hbs]

theorem length_flatten {size : Nat} {bs : List Bytes} (h : ∀ b ∈ bs, b.length = size) :
    bs.flatten.length = size * bs.length := by
  induction bs with
  | nil => simp
  | cons b bs ih =>
    obtain ⟨hb, hbs⟩ := List.forall_mem_cons.1 h
    rw [List.flatten_cons, List.length_append, hb, ih hbs, List.length_cons, Nat.mul_succ,
      Nat.add_comm]

/-! ### Bytes at positions -/

theorem eq_of_getD {a b : Bytes} (length : a.length = b.length)
    (h : ∀ j < a.length, a.getD j 0 = b.getD j 0) : a = b := by
  refine List.ext_getElem length fun j hj hj' => ?_
  rw [← List.getD_eq_getElem a 0 hj, ← List.getD_eq_getElem b 0 hj']
  exact h j hj

end SszRecord.Bytes

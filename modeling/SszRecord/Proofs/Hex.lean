/-
Hexadecimal text.

What is written consists of letters and digits only, so each character of it is one byte of the
text, and reading it undoes the writing (`ofText_toText`).
-/
import Mathlib
import SszRecord.Hex

namespace SszRecord

/-- Letters and digits lie between `0` and `z`. -/
theorem toNat_of_isAlphanum {c : Char} (h : c.isAlphanum = true) :
    48 ≤ c.toNat ∧ c.toNat ≤ 122 := by
  simp only [Char.isAlphanum, Char.isAlpha, Char.isUpper, Char.isLower, Char.isDigit,
    Bool.or_eq_true, Bool.and_eq_true, decide_eq_true_eq, UInt32.le_iff_toNat_le, ge_iff_le] at h
  have hcode : c.toNat = c.val.toNat := rfl
  have hA : 'A'.val.toNat = 65 := rfl
  have hZ : 'Z'.val.toNat = 90 := rfl
  have ha : 'a'.val.toNat = 97 := rfl
  have hz : 'z'.val.toNat = 122 := rfl
  have h0 : '0'.val.toNat = 48 := rfl
  have h9 : '9'.val.toNat = 57 := rfl
  omega

/-- Characters below 128 are single bytes. -/
theorem Bytes.ofText_ofList {cs : List Char} (h : ∀ c ∈ cs, c.toNat < 128) :
    Bytes.ofText (String.ofList cs) = cs.map fun c => UInt8.ofNat c.toNat := by
  rw [Bytes.ofText, String.toUTF8_eq_toByteArray, String.toByteArray_ofList]
  induction cs with
  | nil => rfl
  | cons c cs ih =>
    obtain ⟨hc, hcs⟩ := List.forall_mem_cons.1 h
    have hsize : c.utf8Size = 1 := by
      rw [Char.utf8Size_eq_one_iff, UInt32.le_iff_toNat_le]
      exact Nat.le_of_lt_succ hc
    rw [List.utf8Encode_cons, List.utf8Encode_singleton, String.utf8EncodeChar_eq_singleton hsize,
      ByteArray.data_append, Array.toList_append, ih hcs]
    rfl

namespace Hex

/-- The character of a digit is a letter or digit, and its code is the byte. -/
theorem charOf_digit : ∀ n, n < 16 → (Char.ofNat (digit n).toNat).isAlphanum = true ∧
    UInt8.ofNat (Char.ofNat (digit n).toNat).toNat = digit n := by decide

theorem exists_of_mem_encode {b : Bytes} {d : UInt8} (h : d ∈ encode b) :
    ∃ n, n < 16 ∧ digit n = d := by
  obtain ⟨x, -, hd⟩ := List.mem_flatMap.1 h
  have hx := x.toNat_lt
  rw [digits, List.mem_pair] at hd
  obtain rfl | rfl := hd
  · exact ⟨x.toNat / 16, by omega, rfl⟩
  · exact ⟨x.toNat % 16, by omega, rfl⟩

theorem toList_toText (b : Bytes) :
    (toText b).toList = '0' :: 'x' :: (encode b).map fun d => Char.ofNat d.toNat := by
  rw [toText, String.toList_append, String.toList_ofList, String.toList_ofList]
  rfl

theorem isAlphanum_of_mem_toText {b : Bytes} {c : Char} (h : c ∈ (toText b).toList) :
    c.isAlphanum = true := by
  rw [toList_toText, List.mem_cons, List.mem_cons, List.mem_map] at h
  obtain rfl | rfl | ⟨d, hd, rfl⟩ := h
  · rfl
  · rfl
  · obtain ⟨n, hn, rfl⟩ := exists_of_mem_encode hd
    exact (charOf_digit n hn).1

/-- **Reading undoes writing.** -/
theorem ofText_toText (b : Bytes) : ofText (toText b) = .ok b := by
  have hascii : ∀ c ∈ (toText b).toList, c.toNat < 128 := by
    intro c hc
    have hcode := toNat_of_isAlphanum (isAlphanum_of_mem_toText hc)
    omega
  have hbytes := Bytes.ofText_ofList hascii
  rw [String.ofList_toList, toList_toText, List.map_cons, List.map_cons, List.map_map] at hbytes
  have hdigits : (encode b).map ((fun c => UInt8.ofNat c.toNat) ∘ fun d => Char.ofNat d.toNat) =
      encode b := by
    refine (List.map_congr_left fun d hd => ?_).trans (List.map_id _)
    obtain ⟨n, hn, rfl⟩ := exists_of_mem_encode hd
    exact (charOf_digit n hn).2
  rw [hdigits] at hbytes
  rw [ofText, hbytes]
  exact decode_encode b

theorem toText_injective : Function.Injective toText := by
  intro b b' h
  have hread := ofText_toText b
  rw [h, ofText_toText, Except.ok.injEq] at hread
  exact hread.symm

end Hex

end SszRecord

/-
Fixed sizes of kinds.

* `isFixedSize_eq` : being of fixed size and having a fixed size are the same;
* `fixedPartSize_eq_sum` : the inline part of a container is as long as its slots together;
* `Sound.fixedSize_pos` : no value of a sound kind of fixed size is empty.
-/
import Mathlib
import SszRecord.Proofs.Schema.Fits

namespace SszRecord.Kind

theorem allFixedSize_iff {fields : List (Field Kind)} :
    allFixedSize fields = true ↔ ∀ f ∈ fields, f.kind.isFixedSize = true := by
  induction fields with
  | nil => simp [allFixedSize]
  | cons f fields ih => rw [allFixedSize, Bool.and_eq_true, ih, List.forall_mem_cons]

theorem isFixedSize_eq (k : Kind) : k.isFixedSize = k.fixedSize?.isSome := by
  induction k with
  | bytes n => rfl
  | uint w => rfl
  | byteList max => rfl
  | vector item n ih => rw [isFixedSize, fixedSize?, Option.isSome_map, ih]
  | list item max => rfl
  | container name fields =>
    rw [isFixedSize, fixedSize?]
    split
    · rename_i h
      rw [h]
      rfl
    · rename_i h
      rw [Bool.not_eq_true] at h
      rw [h]
      rfl

theorem fixedPartSize_eq_sum (fields : List (Field Kind)) :
    fixedPartSize fields = (fields.map fun f => f.kind.inlineSize).sum := by
  induction fields with
  | nil => rfl
  | cons f fields ih => rw [fixedPartSize, List.map_cons, List.sum_cons, ih, inlineSize]

theorem Sound.fixedSize_pos {k : Kind} (hk : k.Sound) {n : Nat} (h : k.fixedSize? = some n) :
    0 < n := by
  induction hk generalizing n with
  | bytes pos =>
    cases h
    exact pos
  | uint width =>
    cases h
    fin_cases width <;> decide
  | byteList => cases h
  | vector pos each ih =>
    rw [fixedSize?, Option.map_eq_some_iff] at h
    obtain ⟨size, hsize, rfl⟩ := h
    exact Nat.mul_pos (ih hsize) pos
  | list each => cases h
  | @container name fields nonempty each ih =>
    rw [fixedSize?] at h
    split at h
    · rename_i fixed
      cases h
      obtain ⟨f, rest, rfl⟩ := List.exists_cons_of_ne_nil nonempty
      have hf := allFixedSize_iff.1 fixed f List.mem_cons_self
      rw [isFixedSize_eq, Option.isSome_iff_exists] at hf
      obtain ⟨size, hsize⟩ := hf
      have hpos := ih f List.mem_cons_self hsize
      rw [fixedPartSize, hsize, Option.getD_some]
      omega
    · cases h

end SszRecord.Kind

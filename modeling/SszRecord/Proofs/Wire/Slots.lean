/-
Where the slots of fields stand.

Whether a kind is of fixed size and which size that is are found by two walks over the kind.
Writing a container asks the first one and writes slot behind slot; reading it asks the second one
and counts.  Both come to the same places, the sums of the inline sizes of the fields in front.

* `Kind.isSome_sizeIn` : a size is there exactly for kinds of fixed size, however it is calculated;
* `Kind.encode_of_fixedSize` : a value is written as exactly as many bytes as the size says;
* `Wire.readSlots_eq` : reading looks for each slot where the sizes in front of it say;
* `Kind.inlineParts_split` : writing puts it there;
* `Kind.fixedSize_honest` : all of this.
-/
import Mathlib
import SszRecord.Proofs.Schema.Overflow
import SszRecord.Proofs.Wire.Layout

namespace SszRecord

/-! ### Sizes -/

namespace Kind

theorem isFixedSize_iff_exists {k : Kind} : k.isFixedSize = true ↔ ∃ n, k.fixedSize? = some n := by
  rw [isFixedSize_eq, Option.isSome_iff_exists]

/-- However sizes are calculated, kinds of fixed size have one and the others do not. -/
theorem isSome_sizeIn {α : Type} {arith : Arithmetic α} {k : Kind} {size? : Option α}
    (h : k.sizeIn arith = some size?) : size?.isSome = k.isFixedSize := by
  induction k generalizing size? with
  | bytes n | uint w | byteList max | list item max _ =>
    cases h
    rfl
  | vector item n ih =>
    rw [sizeIn, Option.bind_eq_bind, Option.bind_eq_some_iff] at h
    obtain ⟨itemSize?, hitem, h⟩ := h
    rw [isFixedSize, ← ih hitem]
    cases itemSize? with
    | none =>
      cases h
      rfl
    | some itemSize =>
      obtain ⟨size, -, rfl⟩ := Option.map_eq_some_iff.1 h
      rfl
  | container name fields _ =>
    rw [sizeIn] at h
    rw [isFixedSize]
    split at h
    · rename_i fixed
      obtain ⟨size, -, rfl⟩ := Option.map_eq_some_iff.1 h
      exact fixed.symm
    · rename_i notFixed
      cases h
      exact (Bool.eq_false_iff.2 notFixed).symm

/-- **Values of fixed size are written as exactly that many bytes**, and cannot fail to be. -/
theorem encode_of_fixedSize {k : Kind} {v : Value} {n : Nat} (h : k.Holds v)
    (size : k.fixedSize? = some n) :
    ∃ b, k.encode v = .ok b ∧ b.length = n ∧ k.valueSize v = .ok n := by
  have placed := placed_of_fixed h (isFixedSize_iff_exists.2 ⟨n, size⟩)
  have length := length_layout h size
  refine ⟨k.layout v, (encode_eq_ok h).2 ⟨placed, rfl⟩, length, ?_⟩
  rw [valueSize_eq h, length]

end Kind

/-! ### Reading -/

namespace Wire

/-- Where the slot of the field at a position begins: behind the slots of the fields in front. -/
def slotStart (fields : List (Field Kind)) (i : Nat) : Nat :=
  ((fields.take i).map fun f => f.kind.inlineSize).sum

@[simp] theorem slotStart_cons_succ (f : Field Kind) (fields : List (Field Kind)) (i : Nat) :
    slotStart (f :: fields) (i + 1) = f.kind.inlineSize + slotStart fields i := rfl

/-- The slots of all fields make up the inline part. -/
theorem slotStart_length (fields : List (Field Kind)) :
    slotStart fields fields.length = Kind.fixedPartSize fields := by
  rw [slotStart, List.take_length, Kind.fixedPartSize_eq_sum]

theorem slotStart_append (pre fields : List (Field Kind)) :
    slotStart (pre ++ fields) pre.length = Kind.fixedPartSize pre := by
  rw [slotStart, List.take_left, Kind.fixedPartSize_eq_sum]

/-- The slot of the field `f` at a position, read where the sizes of the fields in front of it
say.  The first offset of all has to be the size of the inline part. -/
def readSlotAt (region : Bytes) (inlineSize : Nat) (fields : List (Field Kind)) (f : Field Kind)
    (i : Nat) : Except CodecError Slot :=
  match f.kind.fixedSize? with
  | some size => .ok (.inline ⟨slotStart fields i, slotStart fields i + size⟩)
  | none => do
    let offset ← readOffset region (slotStart fields i)
    if Kind.allFixedSize (fields.take i) ∧ offset ≠ inlineSize then
      throw (.firstOffset inlineSize offset)
    return .offset offset

/-- Reading has always come as far as the slots before it reach. -/
theorem readSlots_behind (region : Bytes) (inlineSize : Nat) (pre fields : List (Field Kind)) :
    readSlots region inlineSize (Kind.fixedPartSize pre) (Kind.allFixedSize pre) fields =
      mapItems (fun p => readSlotAt region inlineSize (pre ++ fields) p.1 p.2)
        (fields.zipIdx pre.length) := by
  -- the position and the flag that reading carries along are functions of the fields in front
  induction fields generalizing pre with
  | nil => rfl
  | cons f fields ih =>
    have hpre : pre ++ f :: fields = (pre ++ [f]) ++ fields := by simp
    have hsize : Kind.fixedPartSize (pre ++ [f]) =
        Kind.fixedPartSize pre + f.kind.inlineSize := by
      simp [Kind.fixedPartSize_eq_sum]
    have hfixed : Kind.allFixedSize (pre ++ [f]) =
        (Kind.allFixedSize pre && f.kind.isFixedSize) := by
      rw [Bool.eq_iff_iff, Bool.and_eq_true]
      simp [Kind.allFixedSize_iff, or_imp, forall_and]
    have hrest := ih (pre ++ [f])
    rw [← hpre, hsize, hfixed, List.length_append, List.length_singleton, Kind.inlineSize,
      Kind.isFixedSize_eq] at hrest
    rw [List.zipIdx_cons, mapItems, ← hrest, readSlotAt, slotStart_append, List.take_left]
    rw [readSlots]
    cases f.kind.fixedSize? with
    | some size =>
      simp only [ok_bind, pure_eq_ok, Option.getD_some, Option.isSome_some, Bool.and_true]
    | none =>
      rw [Option.getD_none, Option.isSome_none, Bool.and_false]
      cases readOffset region (Kind.fixedPartSize pre) with
      | error e => rfl
      | ok offset =>
        by_cases hfirst : Kind.allFixedSize pre = true ∧ offset ≠ inlineSize
        · simp only [ok_bind, if_pos hfirst, throw_eq_error, error_bind]
        · simp only [ok_bind, if_neg hfirst, pure_eq_ok]

/-- **Reading looks for every slot where the sizes in front of it say.** -/
theorem readSlots_eq (region : Bytes) (inlineSize : Nat) (fields : List (Field Kind)) :
    readSlots region inlineSize 0 true fields =
      mapItems (fun p => readSlotAt region inlineSize fields p.1 p.2) fields.zipIdx :=
  readSlots_behind region inlineSize [] fields

end Wire

/-! ### Writing -/

namespace Kind

theorem inlineParts_nil (offset : Nat) : inlineParts offset [] [] = .ok [] := by
  rw [inlineParts]
  simp

/-- A field writes a slot of its inline size, and the fields behind it go on from there with the
offset that it leaves to them. -/
theorem exists_slot {f : Field Kind} {v : Value} (h : f.kind.Holds v) {offset : Nat}
    {fields : List (Field Kind)} {values : List Value} {b : Bytes}
    (written : inlineParts offset (f :: fields) (v :: values) = .ok b) :
    ∃ slot offset', slot.length = f.kind.inlineSize ∧
      ∀ fields' values', inlineParts offset (f :: fields') (v :: values') =
        inlineParts offset' fields' values' >>= fun rest => .ok (slot ++ rest) := by
  cases hsize : f.kind.fixedSize? with
  | some n =>
    have fixed : f.kind.isFixedSize = true := isFixedSize_iff_exists.2 ⟨n, hsize⟩
    obtain ⟨slot, hslot, length, -⟩ := encode_of_fixedSize h hsize
    refine ⟨slot, offset, ?_, fun fields' values' => ?_⟩
    · rw [length, inlineSize, hsize, Option.getD_some]
    · rw [inlineParts, if_pos fixed, hslot, ok_bind]
      rfl
  | none =>
    have notFixed : ¬f.kind.isFixedSize = true := by simp [isFixedSize_eq, hsize]
    rw [inlineParts, if_neg notFixed, bind_eq_ok] at written
    obtain ⟨slot, hslot, -⟩ := written
    -- an offset may not fit its slot, so the slot is taken from what has been written
    have length := (offsetSlot_eq_ok.1 hslot).2
    refine ⟨slot, offset + (f.kind.layout v).length, ?_, fun fields' values' => ?_⟩
    · rw [← length, Bytes.length_ofNat, inlineSize, hsize, Option.getD_none]
    · rw [inlineParts, if_neg notFixed, hslot, ok_bind, valueSize_eq h, ok_bind]
      rfl

/-- **Writing puts every slot where the sizes in front of it say.**  The fields in front of a
position have written as many bytes, and what follows are the slots of the fields from there on. -/
theorem inlineParts_split {fields : List (Field Kind)} {values : List Value}
    (h : FieldsHold fields values) {offset : Nat} {b : Bytes}
    (written : inlineParts offset fields values = .ok b) (i : Nat) :
    Wire.slotStart fields i ≤ b.length ∧
      inlineParts offset (fields.take i) (values.take i) =
        .ok (b.take (Wire.slotStart fields i)) ∧
      ∃ offset', inlineParts offset' (fields.drop i) (values.drop i) =
        .ok (b.drop (Wire.slotStart fields i)) := by
  -- the offset differs from field to field, but the places of the slots do not depend on it
  induction i generalizing offset fields values b with
  | zero => exact ⟨Nat.zero_le _, inlineParts_nil offset, offset, written⟩
  | succ i ih =>
    cases h with
    | nil =>
      rw [inlineParts_nil] at written
      cases written
      exact ⟨Nat.zero_le _, inlineParts_nil offset, offset, inlineParts_nil offset⟩
    | @cons f v fields values hf hfields =>
      obtain ⟨slot, offset', length, hcons⟩ := exists_slot hf written
      rw [hcons, bind_eq_ok] at written
      obtain ⟨rest, hrest, hb⟩ := written
      cases hb
      obtain ⟨hle, htake, hdrop⟩ := ih hfields hrest
      rw [Wire.slotStart_cons_succ, ← length, List.length_append, List.take_succ_cons,
        List.take_succ_cons, List.drop_succ_cons, List.drop_succ_cons, hcons, htake, ok_bind,
        List.take_length_add_append, List.drop_length_add_append]
      exact ⟨Nat.add_le_add_left hle _, rfl, hdrop⟩

/-- What is written for a container begins with all its slots. -/
theorem slots_of_encode {name : String} {fields : List (Field Kind)} {values : List Value}
    (h : FieldsHold fields values) {data : Bytes}
    (written : encode (.container name fields) (.container values) = .ok data) (i : Nat) :
    Wire.slotStart fields i ≤ data.length ∧
      inlineParts (fixedPartSize fields) (fields.take i) (values.take i) =
        .ok (data.take (Wire.slotStart fields i)) ∧
      ∃ offset slots, inlineParts offset (fields.drop i) (values.drop i) = .ok slots ∧
        slots <+: data.drop (Wire.slotStart fields i) := by
  rw [encode, bind_eq_ok] at written
  obtain ⟨inline, hinline, written⟩ := written
  obtain ⟨payloads, -, hdata⟩ := bind_eq_ok.1 written
  cases hdata
  obtain ⟨hle, htake, offset, hdrop⟩ := inlineParts_split h hinline i
  rw [List.take_append_of_le_length hle, List.drop_append_of_le_length hle]
  exact ⟨hle.trans (List.length_append ▸ Nat.le_add_right _ _), htake, offset, _, hdrop,
    List.prefix_append _ _⟩

/-- In words that wrap around, the size of a sound kind is the true one as far as it fits. -/
theorem Sound.sizeIn_wrapping {k : Kind} (sound : k.Sound) {n : Nat}
    (size : k.fixedSize? = some n) : k.sizeIn .wrapping = some (some (UInt64.ofNat n)) := by
  rw [sizeIn_eq Arithmetic.wrapping_calculates (Option.some_ne_none _) sound
    fun _ _ => Option.some_ne_none _, size]
  rfl

/-- **The two notions of fixed size agree and are honest.**  A kind is of fixed size exactly if it
has a size, however sizes are calculated.  What fits an accepted kind of fixed size is written as
exactly that many bytes, and is measured so without being written; in words that wrap around, the
size is their number.  The slot of a field stands behind the sum of the inline sizes of the fields
in front of it: reading a container looks for all slots there and nowhere else, and writing one puts
them there. -/
theorem fixedSize_honest (k : Kind) (s : Schema) :
    (k.isFixedSize = true ↔ ∃ n, k.fixedSize? = some n) ∧
      (∀ (α : Type) (arith : Arithmetic α) (size? : Option α), k.sizeIn arith = some size? →
        size?.isSome = k.isFixedSize) ∧
      (∀ n v place place', k.fixedSize? = some n → k.validate place = .ok () →
        k.check place' v = .ok () →
          ∃ b, k.encode v = .ok b ∧ b.length = n ∧ k.valueSize v = .ok n ∧
            k.sizeIn .wrapping = some (some (UInt64.ofNat b.length))) ∧
      Wire.slotStart s.fields s.fields.length = s.fixedPartSize ∧
      (∀ region inlineSize, Wire.readSlots region inlineSize 0 true s.fields =
        mapItems (fun p => Wire.readSlotAt region inlineSize s.fields p.1 p.2) s.fields.zipIdx) ∧
      ∀ r data, s.Valid → s.Conforms r → s.kind.encode (.container r) = .ok data → ∀ i,
        Wire.slotStart s.fields i ≤ data.length ∧
          inlineParts s.fixedPartSize (s.fields.take i) (r.take i) =
            .ok (data.take (Wire.slotStart s.fields i)) ∧
          ∃ offset slots, inlineParts offset (s.fields.drop i) (r.drop i) = .ok slots ∧
            slots <+: data.drop (Wire.slotStart s.fields i) := by
  refine ⟨isFixedSize_iff_exists, fun _ _ _ => isSome_sizeIn, ?_, Wire.slotStart_length _,
    fun region inlineSize => Wire.readSlots_eq region inlineSize _, ?_⟩
  · intro n v place place' size valid conforms
    have sound := (validate_eq_ok place).1 valid
    have holds := holds_iff.2 ⟨sound, (check_eq_ok place' v).1 conforms⟩
    obtain ⟨b, hb, rfl, hsize⟩ := encode_of_fixedSize holds size
    exact ⟨b, hb, rfl, hsize, sound.sizeIn_wrapping size⟩
  · intro r data valid conforms written i
    obtain ⟨-, hfields⟩ := holds_container.1 (Schema.holds_iff.2 ⟨valid, conforms⟩)
    exact slots_of_encode hfields written i

/-- A pair of fixed size stands behind a slot: 1 byte of the tag and 4 of the slot are in front of
it, and the note is written behind the pair. -/
theorem fixedSize_honest_pair :
    let pair : Kind := .container "Pair" [⟨"id", .bytes 2, .reject⟩,
      ⟨"xs", .vector (.uint 2) 2, .reject⟩]
    let v : Value := .container [.bytes [7, 8],
      .vector [.uint (UInt256.ofNat 1), .uint (UInt256.ofNat 515)]]
    let s : Schema := ⟨"Entry", [⟨"tag", .uint 1, .reject⟩, ⟨"note", .byteList 8, .reject⟩,
      ⟨"pair", pair, .reject⟩]⟩
    let r : Record := [.uint (UInt256.ofNat 9), .bytes [170], v]
    let data : Bytes := [9, 11, 0, 0, 0, 7, 8, 1, 0, 3, 2, 170]
    pair.fixedSize? = some 6 ∧ pair.validate ⟨"Entry", "pair", []⟩ = .ok () ∧
      pair.check ⟨"Entry", "pair", []⟩ v = .ok () ∧
      (∃ b, pair.encode v = .ok b ∧ b.length = 6) ∧
      s.Valid ∧ s.Conforms r ∧ s.kind.encode (.container r) = .ok data ∧
      Wire.slotStart s.fields 2 = 5 ∧
      inlineParts 11 (s.fields.take 2) (r.take 2) = .ok [9, 11, 0, 0, 0] ∧
      Wire.readSlots data 11 0 true s.fields =
        .ok [.inline ⟨0, 1⟩, .offset 11, .inline ⟨5, 11⟩] := by
  intro pair v s r data
  have size : pair.fixedSize? = some 6 := by decide
  have valid : pair.validate ⟨"Entry", "pair", []⟩ = .ok () := by
    unfold pair
    rfl
  have fits : pair.check ⟨"Entry", "pair", []⟩ v = .ok () := by
    unfold pair v
    rfl
  have accepted : s.Valid := by
    unfold s pair
    rfl
  have conforms : s.Conforms r := by
    unfold s r pair v
    rfl
  have written : s.kind.encode (.container r) = .ok data := by
    unfold s r pair v data
    rfl
  obtain ⟨-, -, honest, -, slots, places⟩ := fixedSize_honest pair s
  obtain ⟨b, hb, length, -⟩ := honest 6 v _ _ size valid fits
  obtain ⟨-, inFront, -⟩ := places r data accepted conforms written 2
  refine ⟨size, valid, fits, ⟨b, hb, length⟩, accepted, conforms, written, rfl, inFront, ?_⟩
  rw [slots]
  unfold s data pair
  rfl

end Kind

end SszRecord

/-
The layout of values.

`Kind.layout` says what a value is written as, without saying how: integers are little-endian at
their width, byte strings are themselves, and containers and sequences are the regions of their
members.  `Kind.Placed` says that all payloads, at any depth, start where a slot can point to.

Sizes and encodings are computed by other means, and agree with the layout on every value that a
sound kind holds:

* `Kind.length_layout` : values of fixed size are written in that many bytes;
* `Kind.valueSize_eq` : the computed size is the length of the layout;
* `Kind.encode_eq_ok` : a value is encoded exactly if it is placed, and then as its layout.
-/
import Mathlib
import SszRecord.Proofs.Schema.Sizes
import SszRecord.Proofs.UInt256.Bytes
import SszRecord.Proofs.Wire.Reading
import SszRecord.Wire.Encoding

namespace SszRecord

namespace Kind

mutual

/-- The bytes that a value is written as. -/
def layout : Kind → Value → Bytes
  | .uint w, .uint u => Bytes.ofNat w u.toNat
  | .vector item _, .vector items =>
    Wire.region (items.map fun v => ⟨item.isFixedSize, item.layout v⟩)
  | .list item _, .list items =>
    Wire.region (items.map fun v => ⟨item.isFixedSize, item.layout v⟩)
  | .container _ fields, .container values => Wire.region (parts fields values)
  | _, .bytes b => b
  | _, _ => []

/-- The parts of the region of a container. -/
def parts : List (Field Kind) → List Value → List Wire.Part
  | ⟨_, kind, _⟩ :: fields, value :: values =>
    ⟨kind.isFixedSize, kind.layout value⟩ :: parts fields values
  | _, _ => []

end

/-- The part that a value is in the region around it. -/
def part (k : Kind) (v : Value) : Wire.Part := ⟨k.isFixedSize, k.layout v⟩

mutual

/-- Whether all payloads, at any depth, start where a slot can point to. -/
def Placed : Kind → Value → Prop
  | .vector item _, .vector items =>
    Wire.Placeable (items.map item.part) ∧ ∀ v ∈ items, item.Placed v
  | .list item _, .list items =>
    Wire.Placeable (items.map item.part) ∧ ∀ v ∈ items, item.Placed v
  | .container _ fields, .container values =>
    Wire.Placeable (parts fields values) ∧ FieldsPlaced fields values
  | _, _ => True

/-- Whether the values of fields are placed, each within itself. -/
def FieldsPlaced : List (Field Kind) → List Value → Prop
  | ⟨_, kind, _⟩ :: fields, value :: values => kind.Placed value ∧ FieldsPlaced fields values
  | _, _ => True

end

theorem parts_cons (f : Field Kind) (fields : List (Field Kind)) (v : Value) (values : List Value) :
    parts (f :: fields) (v :: values) = f.kind.part v :: parts fields values := by
  rw [parts, part]

theorem layout_vector (item : Kind) (n : Nat) (items : List Value) :
    layout (.vector item n) (.vector items) = Wire.region (items.map item.part) := by
  rw [layout]
  rfl

theorem layout_list (item : Kind) (max : Nat) (items : List Value) :
    layout (.list item max) (.list items) = Wire.region (items.map item.part) := by
  rw [layout]
  rfl

/-! ### Sizes -/

/-- Items of one fixed size are joined without slots. -/
theorem length_region_of_fixed {item : Kind} {size : Nat} {items : List Value}
    (hsize : item.fixedSize? = some size) (h : ∀ v ∈ items, (item.part v).size? = item.fixedSize?) :
    (Wire.region (items.map item.part)).length = size * items.length := by
  have hinline : ∀ p ∈ items.map item.part, p.isInline = true := by
    refine List.forall_mem_map.2 fun v hv => ?_
    rw [Wire.Part.isInline_eq, h v hv, hsize, Option.isSome_some]
  rw [(Wire.region_of_inline hinline).1, Bytes.length_flatten, List.length_map, List.length_map]
  intro b hb
  rw [List.map_map, List.mem_map] at hb
  obtain ⟨v, hv, rfl⟩ := hb
  have hpart := h v hv
  rw [hsize, Wire.Part.size?] at hpart
  split at hpart
  · exact Option.some_inj.1 hpart
  · cases hpart

theorem size?_part_iff {k : Kind} {v : Value} :
    (k.part v).size? = k.fixedSize? ↔ ∀ n, k.fixedSize? = some n → (k.layout v).length = n := by
  rw [Wire.Part.size?, part, isFixedSize_eq]
  cases k.fixedSize? with
  | none => simp
  | some n => simp

theorem map_size?_parts {fields : List (Field Kind)} {values : List Value}
    (h : List.Forall₂ (fun f v => (f.kind.part v).size? = f.kind.fixedSize?) fields values) :
    fields.map (fun f => f.kind.fixedSize?) = (parts fields values).map Wire.Part.size? := by
  induction h with
  | nil => rfl
  | cons hf _ ih => rw [parts_cons, List.map_cons, List.map_cons, hf, ih]

theorem size?_part {k : Kind} {v : Value} (h : k.Holds v) :
    (k.part v).size? = k.fixedSize? := by
  induction h with
  | bytes _ length => rw [← length]; rfl
  | uint _ _ =>
    rw [size?_part_iff]
    intro n hn
    cases hn
    rw [layout, Bytes.length_ofNat]
  | byteList _ => rfl
  | @vector item n items _ _ length _ ih =>
    rw [size?_part_iff]
    intro size hsize
    rw [fixedSize?, Option.map_eq_some_iff] at hsize
    obtain ⟨s, hs, rfl⟩ := hsize
    rw [layout_vector, length_region_of_fixed hs ih, length]
  | list _ _ _ => rfl
  | @container name fields values _ length _ ih =>
    have shape := map_size?_parts
      (forall₂_fields (R := fun k v => (k.part v).size? = k.fixedSize?) length ih)
    rw [size?_part_iff]
    intro size hsize
    rw [fixedSize?] at hsize
    split at hsize
    · rename_i fixed
      cases hsize
      have hinline := (Wire.allFixedSize_iff_isInline shape).1 fixed
      rw [layout, Wire.length_region, (Wire.region_of_inline hinline).2,
        Wire.fixedPartSize_eq_inlineSize shape]
      rfl
    · cases hsize

/-- Values of fixed size are written in that many bytes. -/
theorem length_layout {k : Kind} {v : Value} (h : k.Holds v) {n : Nat}
    (hn : k.fixedSize? = some n) : (k.layout v).length = n :=
  size?_part_iff.1 (size?_part h) n hn

/-- The parts of a container have the sizes of its fields. -/
theorem shape_parts {fields : List (Field Kind)} {values : List Value}
    (h : FieldsHold fields values) :
    fields.map (fun f => f.kind.fixedSize?) = (parts fields values).map Wire.Part.size? :=
  map_size?_parts (h.imp fun _ _ hv => size?_part hv)

/-- A region of payloads is as long as its slots and payloads together. -/
theorem length_region_of_variable {item : Kind} {items : List Value}
    (h : item.isFixedSize = false) :
    (Wire.region (items.map item.part)).length =
      tableSize (items.map fun v => (item.layout v).length) := by
  rw [Wire.length_region]
  induction items with
  | nil => rfl
  | cons v items ih =>
    rw [List.map_cons, List.map_cons, Wire.inlineSize_cons, Wire.payloads, part, h,
      if_neg Bool.false_ne_true, List.flatten_cons, List.length_append, tableSize, ← ih,
      Wire.Part.slotSize_of_payload rfl]
    exact Nat.add_add_add_comm _ _ _ _

theorem fieldsSize_eq {fields : List (Field Kind)} {values : List Value}
    (h : List.Forall₂ (fun f v => f.kind.valueSize v = .ok (f.kind.layout v).length ∧
      (f.kind.part v).size? = f.kind.fixedSize?) fields values) :
    fieldsSize fields values = .ok (Wire.region (parts fields values)).length := by
  rw [Wire.length_region]
  induction h with
  | nil => rfl
  | @cons f v fields values hf _ ih =>
    obtain ⟨hvalue, hsize⟩ := hf
    rw [fieldsSize, parts_cons, Wire.inlineSize_cons, Wire.payloads, Wire.Part.slotSize, hsize,
      part, isFixedSize_eq]
    cases f.kind.fixedSize? with
    | some n =>
      simp only [ih, ok_bind, pure_eq_ok, Option.isSome_some, if_true, Option.getD_some,
        Nat.add_assoc]
    | none =>
      simp only [ih, hvalue, ok_bind, pure_eq_ok, Option.isSome_none, Bool.false_eq_true, if_false,
        Option.getD_none, List.flatten_cons, List.length_append, Except.ok.injEq]
      omega

/-- The size that vectors and lists compute for their items. -/
theorem itemsSize_eq {item : Kind} {items : List Value} (each : ∀ v ∈ items, item.Holds v)
    (ih : ∀ v ∈ items, item.valueSize v = .ok (item.layout v).length) :
    (match item.fixedSize? with
      | some size => .ok (size * items.length)
      | none => do
        let sizes ← mapItems (fun v => item.valueSize v) items
        return tableSize sizes : Except CodecError Nat) =
      .ok (Wire.region (items.map item.part)).length := by
  cases hsize : item.fixedSize? with
  | some size => rw [length_region_of_fixed hsize fun v hv => size?_part (each v hv)]
  | none =>
    have hvar : item.isFixedSize = false := by rw [isFixedSize_eq, hsize]; rfl
    rw [length_region_of_variable hvar]
    simp only [mapItems_ok ih, ok_bind, pure_eq_ok]

/-- **The computed size is the length of the layout.** -/
theorem valueSize_eq {k : Kind} {v : Value} (h : k.Holds v) :
    k.valueSize v = .ok (k.layout v).length := by
  induction h with
  | bytes _ _ => rfl
  | uint _ _ => rw [valueSize, layout, Bytes.length_ofNat]
  | byteList _ => rfl
  | vector _ _ _ each ih =>
    rw [layout_vector, ← itemsSize_eq each ih]
    exact (valueSize.eq_def ..).trans rfl
  | list _ _ each ih =>
    rw [layout_list, ← itemsSize_eq each ih]
    exact (valueSize.eq_def ..).trans rfl
  | container _ length each ih =>
    rw [valueSize, if_pos length.symm, layout]
    exact fieldsSize_eq (forall₂_fields (R := fun k v => k.valueSize v = .ok (k.layout v).length ∧
      (k.part v).size? = k.fixedSize?) length fun p hp => ⟨ih p hp, size?_part (each p hp)⟩)

/-! ### Encodings -/

theorem fieldsPlaced_iff {fields : List (Field Kind)} {values : List Value}
    (length : fields.length = values.length) :
    FieldsPlaced fields values ↔ List.Forall₂ (fun f v => f.kind.Placed v) fields values := by
  induction fields generalizing values with
  | nil =>
    rw [List.eq_nil_of_length_eq_zero length.symm]
    exact ⟨fun _ => .nil, fun _ => trivial⟩
  | cons f fields ih =>
    cases values with
    | nil => cases length
    | cons v values =>
      rw [FieldsPlaced, ih (Nat.succ.inj length), List.forall₂_cons]

/-- Kinds of fixed size have no payloads, so nothing in them has to be placed. -/
theorem placed_of_fixed {k : Kind} {v : Value} (h : k.Holds v) (hk : k.isFixedSize = true) :
    k.Placed v := by
  have placeable {ps : List Wire.Part} (hps : ∀ p ∈ ps, p.isInline = true) :
      Wire.Placeable ps := by
    rw [Wire.Placeable, (Wire.region_of_inline hps).2]
    exact List.forall_mem_nil _
  induction h with
  | bytes _ _ => exact trivial
  | uint _ _ => exact trivial
  | byteList _ => exact trivial
  | vector _ _ _ _ ih =>
    rw [isFixedSize] at hk
    exact ⟨placeable (List.forall_mem_map.2 fun _ _ => hk), fun v hv => ih v hv hk⟩
  | list _ _ _ => cases hk
  | container _ length each ih =>
    rw [isFixedSize] at hk
    refine ⟨placeable ((Wire.allFixedSize_iff_isInline
      (shape_parts (forall₂_fields length each))).1 hk), ?_⟩
    rw [fieldsPlaced_iff length]
    exact forall₂_fields length fun p hp =>
      ih p hp (allFixedSize_iff.1 hk _ (List.of_mem_zip hp).1)

theorem offsetSlot_eq_ok {o : Nat} {b : Bytes} :
    Wire.offsetSlot o = .ok b ↔ o ≤ Wire.maxOffset ∧ Bytes.ofNat offsetSize o = b := by
  rw [Wire.offsetSlot, demand_eq_ok, Except.ok.injEq]

/-- The slots of items are the inline part of a region of payloads. -/
theorem itemSlots_eq_ok {size : Value → Except CodecError Nat} {g : Value → Bytes}
    {items : List Value} (h : ∀ v ∈ items, size v = .ok (g v).length) {offset : Nat} {b : Bytes} :
    itemSlots size offset items = .ok b ↔
      (∀ o ∈ Wire.starts offset (items.map g), o ≤ Wire.maxOffset) ∧
        Wire.slots offset (items.map fun v => ⟨false, g v⟩) = b := by
  induction items generalizing offset b with
  | nil =>
    rw [itemSlots, Except.ok.injEq]
    exact (and_iff_right (List.forall_mem_nil _)).symm
  | cons v items ih =>
    obtain ⟨hv, hitems⟩ := List.forall_mem_cons.1 h
    simp only [itemSlots, hv, bind_eq_ok, offsetSlot_eq_ok, ih hitems, pure_eq_ok, Except.ok.injEq]
    rw [List.map_cons, List.map_cons, Wire.starts, List.forall_mem_cons, Wire.slots,
      if_neg Bool.false_ne_true]
    constructor
    · rintro ⟨_, ⟨ho, rfl⟩, _, rfl, _, ⟨hos, rfl⟩, rfl⟩
      exact ⟨⟨ho, hos⟩, rfl⟩
    · rintro ⟨⟨ho, hos⟩, rfl⟩
      exact ⟨_, ⟨ho, rfl⟩, _, rfl, _, ⟨hos, rfl⟩, rfl⟩

theorem encodeItems_eq_ok {item : Kind} {items : List Value} (each : ∀ v ∈ items, item.Holds v)
    (ih : ∀ v ∈ items, ∀ b, item.encode v = .ok b ↔ item.Placed v ∧ item.layout v = b)
    {b : Bytes} :
    encodeItems item (fun v => item.encode v) items = .ok b ↔
      (Wire.Placeable (items.map item.part) ∧ ∀ v ∈ items, item.Placed v) ∧
        Wire.region (items.map item.part) = b := by
  rw [encodeItems]
  cases hfixed : item.isFixedSize with
  | true =>
    have hinline : ∀ p ∈ items.map item.part, p.isInline = true :=
      List.forall_mem_map.2 fun _ _ => hfixed
    obtain ⟨hregion, hpayloads⟩ := Wire.region_of_inline hinline
    rw [if_pos rfl, Wire.Placeable, hpayloads, hregion, List.map_map]
    simp only [bind_eq_ok, mapItems_iff ih, pure_eq_ok, Except.ok.injEq]
    constructor
    · rintro ⟨_, ⟨hplaced, rfl⟩, rfl⟩
      exact ⟨⟨List.forall_mem_nil _, hplaced⟩, rfl⟩
    · rintro ⟨⟨-, hplaced⟩, rfl⟩
      exact ⟨_, ⟨hplaced, rfl⟩, rfl⟩
  | false =>
    -- all items are payloads, and the inline part is the table of their offsets
    have hpart : item.part = fun v => ⟨false, item.layout v⟩ := by
      funext v
      rw [part, hfixed]
    have htabled : items.map item.part = Wire.tabled (items.map item.layout) := by
      rw [hpart, Wire.tabled, List.map_map]
      rfl
    rw [if_neg Bool.false_ne_true, Wire.Placeable, Wire.region, htabled, Wire.payloads_tabled,
      Wire.inlineSize_tabled, List.length_map, ← htabled, hpart, Nat.mul_comm]
    simp only [bind_eq_ok, itemSlots_eq_ok fun v hv => valueSize_eq (each v hv), mapItems_iff ih,
      pure_eq_ok, Except.ok.injEq]
    constructor
    · rintro ⟨_, ⟨hmax, rfl⟩, _, ⟨hplaced, rfl⟩, rfl⟩
      exact ⟨⟨hmax, hplaced⟩, rfl⟩
    · rintro ⟨⟨hmax, hplaced⟩, rfl⟩
      exact ⟨_, ⟨hmax, rfl⟩, _, ⟨hplaced, rfl⟩, rfl⟩

section Fields

variable {fields : List (Field Kind)} {values : List Value}

/-- The inline part of a container is written exactly if all slots can hold their offsets. -/
theorem inlineParts_eq_ok
    (h : List.Forall₂ (fun f v => f.kind.Holds v ∧
      ∀ b, f.kind.encode v = .ok b ↔ f.kind.Placed v ∧ f.kind.layout v = b) fields values)
    {offset : Nat} {b : Bytes} :
    inlineParts offset fields values = .ok b ↔
      (∀ o ∈ Wire.starts offset (Wire.payloads (parts fields values)), o ≤ Wire.maxOffset) ∧
        Wire.slots offset (parts fields values) = b := by
  induction h generalizing offset b with
  | nil =>
    rw [inlineParts, Except.ok.injEq]
    · exact (and_iff_right (List.forall_mem_nil _)).symm
    · simp
  | @cons f v fields values hf _ ih =>
    obtain ⟨hholds, hencode⟩ := hf
    rw [inlineParts, parts_cons, part, Wire.payloads, Wire.slots]
    cases hfixed : f.kind.isFixedSize with
    | true =>
      -- a value in place has no payloads of its own
      have hplaced := placed_of_fixed hholds hfixed
      simp only [if_true, bind_eq_ok, hencode, ih, pure_eq_ok, Except.ok.injEq]
      constructor
      · rintro ⟨_, ⟨-, rfl⟩, _, ⟨hmax, rfl⟩, rfl⟩
        exact ⟨hmax, rfl⟩
      · rintro ⟨hmax, rfl⟩
        exact ⟨_, ⟨hplaced, rfl⟩, _, ⟨hmax, rfl⟩, rfl⟩
    | false =>
      simp only [Bool.false_eq_true, if_false, bind_eq_ok, offsetSlot_eq_ok,
        valueSize_eq hholds, ih, pure_eq_ok, Except.ok.injEq, Wire.starts, List.forall_mem_cons]
      constructor
      · rintro ⟨_, ⟨ho, rfl⟩, _, rfl, _, ⟨hos, rfl⟩, rfl⟩
        exact ⟨⟨ho, hos⟩, rfl⟩
      · rintro ⟨⟨ho, hos⟩, rfl⟩
        exact ⟨_, ⟨ho, rfl⟩, _, rfl, _, ⟨hos, rfl⟩, rfl⟩

/-- The payloads of a container are written exactly if all its values are placed. -/
theorem payloadParts_eq_ok
    (h : List.Forall₂ (fun f v => f.kind.Holds v ∧
      ∀ b, f.kind.encode v = .ok b ↔ f.kind.Placed v ∧ f.kind.layout v = b) fields values)
    {b : Bytes} :
    payloadParts fields values = .ok b ↔
      FieldsPlaced fields values ∧ (Wire.payloads (parts fields values)).flatten = b := by
  induction h generalizing b with
  | nil =>
    rw [payloadParts, Except.ok.injEq]
    · exact (and_iff_right trivial).symm
    · simp
  | @cons f v fields values hf _ ih =>
    obtain ⟨hholds, hencode⟩ := hf
    rw [payloadParts, parts_cons, part, Wire.payloads, FieldsPlaced]
    cases hfixed : f.kind.isFixedSize with
    | true =>
      have hplaced := placed_of_fixed hholds hfixed
      simp only [if_true, ih, and_iff_right hplaced]
    | false =>
      simp only [Bool.false_eq_true, if_false, bind_eq_ok, hencode, ih, pure_eq_ok,
        Except.ok.injEq, List.flatten_cons]
      constructor
      · rintro ⟨_, ⟨hv, rfl⟩, _, ⟨hvs, rfl⟩, rfl⟩
        exact ⟨⟨hv, hvs⟩, rfl⟩
      · rintro ⟨⟨hv, hvs⟩, rfl⟩
        exact ⟨_, ⟨hv, rfl⟩, _, ⟨hvs, rfl⟩, rfl⟩

end Fields

/-- **A value is encoded exactly if it is placed, and then as its layout.** -/
theorem encode_eq_ok {k : Kind} {v : Value} (h : k.Holds v) {b : Bytes} :
    k.encode v = .ok b ↔ k.Placed v ∧ k.layout v = b := by
  induction h generalizing b with
  | bytes _ _ =>
    rw [encode, Except.ok.injEq]
    exact (and_iff_right trivial).symm
  | uint width _ =>
    rw [encode, layout, UInt256.take_toBytes (width_le width), Except.ok.injEq]
    exact (and_iff_right trivial).symm
  | byteList _ =>
    rw [encode, Except.ok.injEq]
    exact (and_iff_right trivial).symm
  | vector _ _ _ each ih =>
    rw [encode, layout_vector, Placed]
    exact encodeItems_eq_ok each fun v hv _ => ih v hv
  | list _ _ each ih =>
    rw [encode, layout_list, Placed]
    exact encodeItems_eq_ok each fun v hv _ => ih v hv
  | container _ length each ih =>
    -- the two passes over the fields write the two halves of one region
    have hfields := forall₂_fields (R := fun k v => k.Holds v ∧
      ∀ b, k.encode v = .ok b ↔ k.Placed v ∧ k.layout v = b) length
      fun p hp => ⟨each p hp, fun _ => ih p hp⟩
    have shape := shape_parts (forall₂_fields length each)
    rw [encode, layout, Placed, Wire.Placeable, Wire.region,
      Wire.fixedPartSize_eq_inlineSize shape]
    simp only [bind_eq_ok, inlineParts_eq_ok hfields, payloadParts_eq_ok hfields, pure_eq_ok,
      Except.ok.injEq]
    constructor
    · rintro ⟨_, ⟨hmax, rfl⟩, _, ⟨hplaced, rfl⟩, rfl⟩
      exact ⟨⟨hmax, hplaced⟩, rfl⟩
    · rintro ⟨⟨hmax, hplaced⟩, rfl⟩
      exact ⟨_, ⟨hmax, rfl⟩, _, ⟨hplaced, rfl⟩, rfl⟩

end Kind

namespace Schema

/-- The bytes that a record is written as. -/
def layout (s : Schema) (r : Record) : Bytes := s.kind.layout (.container r)

/-- **A record is encoded exactly if it fits and is placed, and then as its layout.** -/
theorem encode_eq_ok {s : Schema} {r : Record} {b : Bytes} :
    s.encode r = .ok b ↔
      (s.Valid ∧ s.Conforms r) ∧ s.kind.Placed (.container r) ∧ s.layout r = b := by
  rw [encode]
  simp only [bind_eq_ok]
  constructor
  · rintro ⟨_, hvalid, _, hcheck, _, -, hencode⟩
    have hholds := holds_iff.2 ⟨hvalid, hcheck⟩
    exact ⟨⟨hvalid, hcheck⟩, (Kind.encode_eq_ok hholds).1 hencode⟩
  · rintro ⟨⟨hvalid, hcheck⟩, h⟩
    have hholds := holds_iff.2 ⟨hvalid, hcheck⟩
    -- sizes of values that fit are always found, so measuring a record first refuses nothing
    have hsize := Kind.valueSize_eq hholds
    rw [kind, Kind.valueSize] at hsize
    exact ⟨(), hvalid, (), hcheck, _, hsize, (Kind.encode_eq_ok hholds).2 h⟩

end Schema

end SszRecord

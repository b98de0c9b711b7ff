/-
What is decoded is no larger than what it is decoded from.

Every part of a region takes room there: a value in place takes its own bytes, of which a sound kind
has at least one, and a payload takes its slot besides.  So a region has at least as many bytes as
parts, and by induction at least as many as leaves of the values in it.

* `Wire.length_region_eq_sum` : the length of a region is the room of its parts;
* `Kind.leaves_le_room` : a value has no more leaves than bytes of room;
* `Wire.length_itemRegions_le` : a sequence has no more items than its region has bytes, whatever
  comes of decoding them;
* `Schema.decode_frugal` : the same for records and the regions inside them, which are decoded in as
  much room as they have bytes.
-/
import Mathlib
import SszRecord.Proofs.Wire.RoundTrip
import SszRecord.Proofs.Wire.Safety

namespace SszRecord

/-! ### Leaves -/

namespace Value

mutual

/-- The number of byte strings, integers and empty lists in a value, at any depth. -/
def leaves : Value → Nat
  | .bytes _ => 1
  | .uint _ => 1
  | .vector items => leavesOf items
  | .list items => if items.isEmpty then 1 else leavesOf items
  | .container values => leavesOf values

/-- The number of leaves of some values together. -/
def leavesOf : List Value → Nat
  | [] => 0
  | v :: values => v.leaves + leavesOf values

end

theorem leavesOf_eq_sum (values : List Value) : leavesOf values = (values.map leaves).sum := by
  induction values with
  | nil => rfl
  | cons v values ih => rw [leavesOf, ih, List.map_cons, List.sum_cons]

end Value

/-- The number of leaves of a record. -/
def Record.leaves (r : Record) : Nat := Value.leavesOf r

/-! ### Room -/

namespace Wire

/-- The number of bytes that a part takes in its region, slot and payload together. -/
def Part.room (p : Part) : Nat := if p.isInline then p.bytes.length else offsetSize + p.bytes.length

theorem Part.length_bytes_le_room (p : Part) : p.bytes.length ≤ p.room := by
  rw [room]
  split
  · exact le_rfl
  · exact Nat.le_add_left _ _

theorem length_region_eq_sum (ps : List Part) : (region ps).length = (ps.map Part.room).sum := by
  rw [length_region]
  induction ps with
  | nil => rfl
  | cons p ps ih =>
    rw [List.map_cons, List.sum_cons, ← ih, inlineSize_cons, payloads, Part.room]
    cases h : p.isInline with
    | true =>
      rw [if_pos rfl, if_pos rfl, Part.slotSize_of_inline h, Nat.add_assoc]
    | false =>
      rw [if_neg Bool.false_ne_true, if_neg Bool.false_ne_true, Part.slotSize_of_payload h,
        List.flatten_cons, List.length_append, Nat.add_add_add_comm]

/-- A part of a sound kind takes a byte at least: no value in place is empty. -/
theorem Part.room_pos {k : Kind} (hk : k.Sound) {p : Part} (h : p.size? = k.fixedSize?) :
    1 ≤ p.room := by
  rw [room]
  rw [size?] at h
  split
  · rename_i hinline
    rw [if_pos hinline] at h
    exact hk.fixedSize_pos h.symm
  · rw [offsetSize]
    omega

/-- Values that have no more leaves than room have no more leaves than their region has bytes. -/
theorem leavesOf_le_length {values : List Value} {ps : List Part}
    (h : List.Forall₂ (fun v p => v.leaves ≤ p.room) values ps) :
    Value.leavesOf values ≤ (region ps).length := by
  rw [Value.leavesOf_eq_sum, length_region_eq_sum]
  apply List.Forall₂.sum_le_sum
  rwa [List.forall₂_map_left_iff, List.forall₂_map_right_iff]

end Wire

namespace Kind

theorem leavesOf_items_le {item : Kind} {items : List Value}
    (h : ∀ v ∈ items, v.leaves ≤ (item.part v).room) :
    Value.leavesOf items ≤ (Wire.region (items.map item.part)).length := by
  apply Wire.leavesOf_le_length
  rwa [List.forall₂_map_right_iff, List.forall₂_same]

theorem leavesOf_fields_le {fields : List (Field Kind)} {values : List Value}
    (h : List.Forall₂ (fun f v => v.leaves ≤ (f.kind.part v).room) fields values) :
    Value.leavesOf values ≤ (Wire.region (parts fields values)).length := by
  apply Wire.leavesOf_le_length
  induction h with
  | nil => exact .nil
  | cons hf _ ih =>
    rw [parts_cons]
    exact .cons hf ih

/-- **A value has no more leaves than it takes room in the region around it.** -/
theorem leaves_le_room {k : Kind} {v : Value} (h : k.Holds v) : v.leaves ≤ (k.part v).room := by
  -- an open kind may hold nothing at all, and then its slot makes up for the one leaf
  induction h with
  | bytes pos length =>
    rw [← length] at pos
    exact pos
  | uint width fits => exact Wire.Part.room_pos (.uint width) (size?_part (.uint width fits))
  | byteList length =>
    exact Wire.Part.room_pos .byteList (size?_part (.byteList length))
  | vector _ _ _ _ ih =>
    refine le_trans ?_ (Wire.Part.length_bytes_le_room _)
    rw [part, layout_vector]
    exact leavesOf_items_le ih
  | @list item max items sound length each ih =>
    rw [Value.leaves]
    split
    · exact Wire.Part.room_pos (.list sound) (size?_part (.list sound length each))
    · refine le_trans ?_ (Wire.Part.length_bytes_le_room _)
      rw [part, layout_list]
      exact leavesOf_items_le ih
  | container _ length _ ih =>
    refine le_trans ?_ (Wire.Part.length_bytes_le_room _)
    rw [part, layout]
    exact leavesOf_fields_le (forall₂_fields (R := fun k v => v.leaves ≤ (k.part v).room) length ih)

/-- The items of a sequence: their kind, and how many there may be. -/
def items? : Kind → Option (Kind × Wire.Count)
  | .vector item n => some (item, .exactly n)
  | .list item max => some (item, .atMost max)
  | _ => none

theorem sound_items {k item : Kind} {count : Wire.Count} (hk : k.Sound)
    (h : k.items? = some (item, count)) : item.Sound ∧ count ≠ .exactly 0 := by
  cases hk with
  | vector pos sound =>
    cases h
    exact ⟨sound, Wire.Count.exactly_ne pos⟩
  | list sound =>
    cases h
    exact ⟨sound, Wire.Count.atMost_ne⟩
  | _ => cases h

end Kind

/-! ### Items -/

namespace Wire

/-- Where the number of items of a sequence comes from: a vector has as many as it says, a list of
items of one size as many as fill its region, and any other list as many as its table says. -/
def Counted (item : Kind) (count : Count) (region : Bytes) (n : Nat) : Prop :=
  match count, item.fixedSize? with
  | .exactly m, _ => n = m
  | .atMost _, some size => n = region.length / size
  | .atMost max, none => itemCount region max = .ok n

theorem counted_itemRegions {item : Kind} (sound : item.Sound) {count : Count}
    (hcount : count ≠ .exactly 0) {region : Bytes} {bs : List Bytes}
    (h : itemRegions item count region = .ok bs) : Counted item count region bs.length := by
  cases count with
  | exactly n => exact ((itemRegions_eq_ok sound hcount).1 h).1
  | atMost max =>
    rw [itemRegions] at h
    rw [Counted.eq_def]
    cases hsize : item.fixedSize? with
    | some size =>
      rw [hsize] at h
      have hpos := sound.fixedSize_pos hsize
      obtain ⟨-, heach, rfl⟩ := (packedItems_eq_ok hpos).1 h
      show bs.length = _
      rw [Bytes.length_flatten heach, Nat.mul_div_cancel_left _ hpos]
    | none =>
      rw [hsize] at h
      simp only [tabledItems.eq_def, bind_eq_ok] at h
      obtain ⟨n, hn, ss, hss, h⟩ := h
      cases h
      show itemCount region max = .ok _
      rw [List.length_map, length_itemSpans hss, hn]

/-- **A sequence has no more items than its region has bytes**, and this is known before any of them
is decoded. -/
theorem length_itemRegions_le {item : Kind} (sound : item.Sound) {count : Count}
    (hcount : count ≠ .exactly 0) {region : Bytes} {bs : List Bytes}
    (h : itemRegions item count region = .ok bs) : bs.length ≤ region.length := by
  obtain ⟨-, hsize, -, rfl⟩ := (itemRegions_eq_ok sound hcount).1 h
  rw [length_region_eq_sum, List.map_map]
  have hroom := List.length_le_sum_of_one_le (bs.map (Part.room ∘ Part.mk item.isFixedSize))
    (List.forall_mem_map.2 fun b hb => Part.room_pos sound (hsize b hb))
  rwa [List.length_map] at hroom

end Wire

namespace Schema

/-- **Decoding does not amplify its input.**  A record has no more leaves than the bytes that it was
decoded from.  And wherever decoding arrives at a sequence, the number of items that it settles on
is at most the length of the region, be the items decoded or refused later on: decoding answers the
same where there is room for no more items than the region has bytes. -/
theorem decode_frugal {s : Schema} (valid : s.Valid) (m : Nat) (data : Bytes) :
    (∀ r, s.decode m data = .ok r → Record.leaves r ≤ data.length) ∧
    (∀ k region item count bs, s.kind.Arrives data k region → k.items? = some (item, count) →
      Wire.itemRegions item count region = .ok bs →
        Wire.Counted item count region bs.length ∧ bs.length ≤ region.length) ∧
    (s.decodeOn { Machine.exact with hasRoom := fun items length => decide (items ≤ length) }
      m data).run = some (s.decode m data) := by
  refine ⟨?_, ?_, ?_⟩
  · intro r h
    obtain ⟨hholds, -, rfl⟩ := layout_of_decode h
    obtain ⟨-, hfields⟩ := Kind.holds_container.1 hholds
    rw [kind, Kind.layout]
    exact Kind.leavesOf_fields_le (hfields.imp fun _ _ => Kind.leaves_le_room)
  · intro k region item count bs harrives hitems h
    obtain ⟨sound, hcount⟩ := Kind.sound_items (harrives.sound (valid_iff.1 valid)) hitems
    exact ⟨Wire.counted_itemRegions sound hcount h, Wire.length_itemRegions_le sound hcount h⟩
  · refine decodeOn_of_exact rfl rfl (fun h => decide_eq_true h) fun valid => ?_
    exact Machine.cutsRightly_of_slice? rfl (valid_iff.1 valid) data

theorem decode_frugal_lines :
    let s : Schema := ⟨"Log", [⟨"lines", .list (.byteList 1) 4, .reject⟩]⟩
    let r : Record := [.list [.bytes [1], .bytes []]]
    let data : Bytes := [4, 0, 0, 0, 8, 0, 0, 0, 9, 0, 0, 0, 1]
    let refused : Bytes := [4, 0, 0, 0, 8, 0, 0, 0, 9, 0, 0, 0, 1, 2, 3]
    s.Valid ∧ s.decode 1 data = .ok r ∧ Record.leaves r ≤ data.length ∧
      s.decode 1 refused = .error (.itemTooLarge 2 1) ∧
      (s.decodeOn { Machine.exact with hasRoom := fun items length => decide (items ≤ length) }
        1 refused).run = some (.error (.itemTooLarge 2 1)) ∧
      ∃ region, s.kind.Arrives refused (.list (.byteList 1) 4) region ∧
        Wire.itemRegions (.byteList 1) (.atMost 4) region = .ok [[1], [2, 3]] ∧
        2 ≤ region.length := by
  intro s r data refused
  have valid : s.Valid := by
    unfold s
    rfl
  have hdecode : s.decode 1 data = .ok r := by
    unfold s r data
    rfl
  have hrefused : s.decode 1 refused = .error (.itemTooLarge 2 1) := by
    unfold s refused
    rfl
  -- the table is in order, and only the second item is too long
  have harrives : s.kind.Arrives refused (.list (.byteList 1) 4)
      ((⟨4, 15⟩ : Wire.Span).slice refused) := by
    have hspans : Wire.containerSpans s.fields refused = .ok [⟨4, 15⟩] := by
      unfold s refused
      rfl
    exact .enter .start (.field hspans List.mem_cons_self)
  have hitems : Wire.itemRegions (.byteList 1) (.atMost 4)
      ((⟨4, 15⟩ : Wire.Span).slice refused) = .ok [[1], [2, 3]] := by
    unfold refused
    rfl
  obtain ⟨hleaves, -⟩ := decode_frugal valid 1 data
  obtain ⟨-, hcounts, hroom⟩ := decode_frugal valid 1 refused
  obtain ⟨-, hle⟩ := hcounts _ _ _ _ _ harrives rfl hitems
  rw [hrefused] at hroom
  exact ⟨valid, hdecode, hleaves r hdecode, hrefused, hroom, _, harrives, hitems, hle⟩

end Schema

end SszRecord

/-
Values of fixed size.

A kind of fixed size has no use for offsets, and its values are all byte strings of this size:

* `Wire.containerSpans_of_fixed` : a region of fixed size is cut into regions of the sizes of its
  fields;
* `Kind.exists_decode_of_length`, `Schema.exists_decode_of_length` : whatever stands there is
  decoded, unless it lies too deep for the limit;
* `Schema.size_of_shortBuffer` : so bytes can only be missing at the end.
-/
import Mathlib
import SszRecord.Proofs.Schema.Nesting
import SszRecord.Proofs.UInt256.Bytes
import SszRecord.Proofs.Wire.Reading

namespace SszRecord

/-- A byte string is as long as some fields of fixed size together, if it consists of one string for
each of them. -/
theorem Kind.exists_regions_of_fixed {fields : List (Field Kind)}
    (fixed : Kind.allFixedSize fields = true) {data : Bytes}
    (h : data.length = Kind.fixedPartSize fields) :
    ∃ bs : List Bytes, bs.flatten = data ∧
      List.Forall₂ (fun f b => f.kind.fixedSize? = some b.length) fields bs := by
  induction fields generalizing data with
  | nil => exact ⟨[], (List.eq_nil_of_length_eq_zero h).symm, .nil⟩
  | cons f fields ih =>
    obtain ⟨hf, hfields⟩ := List.forall_mem_cons.1 (Kind.allFixedSize_iff.1 fixed)
    rw [Kind.isFixedSize_eq, Option.isSome_iff_exists] at hf
    obtain ⟨n, hn⟩ := hf
    rw [Kind.fixedPartSize, hn, Option.getD_some] at h
    have hrest : (data.drop n).length = Kind.fixedPartSize fields := by
      rw [List.length_drop]
      omega
    obtain ⟨bs, hbs, heach⟩ := ih (Kind.allFixedSize_iff.2 hfields) hrest
    refine ⟨data.take n :: bs, ?_, .cons ?_ heach⟩
    · rw [List.flatten_cons, hbs, List.take_append_drop]
    · rw [hn, List.length_take, Nat.min_eq_left (by omega)]

namespace Wire

/-- A region of fixed size is cut into regions of the sizes of the fields. -/
theorem containerSpans_of_fixed {fields : List (Field Kind)}
    (fixed : Kind.allFixedSize fields = true) {data : Bytes}
    (h : data.length = Kind.fixedPartSize fields) :
    ∃ ss, containerSpans fields data = .ok ss ∧
      List.Forall₂ (fun f b => f.kind.fixedSize? = some b.length) fields
        (ss.map fun s => s.slice data) := by
  obtain ⟨bs, hflatten, heach⟩ := Kind.exists_regions_of_fixed fixed h
  -- these strings are the parts of a region without payloads
  let ps := bs.map (Part.mk true)
  have hbytes : ps.map Part.bytes = bs := by
    rw [List.map_map]
    exact List.map_id bs
  have shape : fields.map (fun f => f.kind.fixedSize?) = ps.map Part.size? := by
    rw [List.map_map, ← List.forall₂_eq_eq_eq, List.forall₂_map_left_iff,
      List.forall₂_map_right_iff]
    exact heach
  have hinline : ∀ p ∈ ps, p.isInline = true := List.forall_mem_map.2 fun _ _ => rfl
  obtain ⟨hregion, hpayloads⟩ := region_of_inline hinline
  have hplace : Placeable ps := by
    rw [Placeable, hpayloads]
    exact List.forall_mem_nil _
  rw [hbytes, hflatten] at hregion
  obtain ⟨ss, hss, hslices⟩ := containerSpans_eq_ok.2 ⟨ps, shape, hplace, hregion, hbytes⟩
  refine ⟨ss, hss, ?_⟩
  rw [hslices]
  exact heach

end Wire

namespace Kind

variable {m depth : Nat}

theorem exists_decodeFields {fields : List (Field Kind)} {bs : List Bytes}
    (h : List.Forall₂ (fun f b => ∃ v, f.kind.decode m depth b = .ok v) fields bs) :
    ∃ values, decodeFields m fields depth bs = .ok values := by
  induction h with
  | nil => exact ⟨[], rfl⟩
  | cons hf _ ih =>
    obtain ⟨v, hv⟩ := hf
    obtain ⟨values, hvalues⟩ := ih
    rw [decodeFields, hv, hvalues]
    exact ⟨v :: values, rfl⟩

/-- The fields of a region of fixed size are decoded if whatever has the size of a field is. -/
theorem decodeFields_of_fixed {fields : List (Field Kind)} (fixed : allFixedSize fields = true)
    {data : Bytes} (hlen : data.length = fixedPartSize fields)
    (h : ∀ f ∈ fields, ∀ b : Bytes, f.kind.fixedSize? = some b.length →
      ∃ v, f.kind.decode m depth b = .ok v) :
    ∃ ss values, Wire.containerSpans fields data = .ok ss ∧
      decodeFields m fields depth (ss.map fun s => s.slice data) = .ok values := by
  obtain ⟨ss, hss, hsizes⟩ := Wire.containerSpans_of_fixed fixed hlen
  obtain ⟨values, hvalues⟩ := exists_decodeFields (forall₂_imp_of_mem hsizes h)
  exact ⟨ss, values, hss, hvalues⟩

/-- **Every byte string of its size is a value of a kind of fixed size.** -/
theorem exists_decode_of_length {k : Kind} (sound : k.Sound) {data : Bytes}
    (size : k.fixedSize? = some data.length) (levels : depth + k.nesting ≤ m) :
    ∃ v, k.decode m depth data = .ok v := by
  induction sound generalizing depth data with
  | bytes _ =>
    cases size
    rw [decode, Wire.exactLength_eq_ok.2 rfl]
    exact ⟨_, rfl⟩
  | uint width =>
    cases size
    rw [decode, Wire.exactLength_eq_ok.2 rfl, ok_bind, UInt256.ofBytes?_eq (width_le width)]
    exact ⟨_, rfl⟩
  | byteList => cases size
  | @vector item n _ sound ih =>
    rw [fixedSize?, Option.map_eq_some_iff] at size
    obtain ⟨itemSize, hitem, hsize⟩ := size
    obtain ⟨hflatten, hcount, heach⟩ := Bytes.flatten_pieces hsize.symm
    have hregions : Wire.itemRegions item (.exactly n) data =
        .ok (Bytes.pieces itemSize n data) := by
      rw [Wire.itemRegions, hitem]
      exact (Wire.packedItems_eq_ok (sound.fixedSize_pos hitem)).2 ⟨hcount, heach, hflatten⟩
    rw [nesting] at levels
    have hdecode : ∀ b ∈ Bytes.pieces itemSize n data, ∃ v, item.decode m (depth + 1) b = .ok v := by
      intro b hb
      rw [← heach b hb] at hitem
      exact ih hitem (by omega)
    obtain ⟨items, hitems⟩ := exists_mapItems hdecode
    rw [decode, Wire.checkDepth, if_neg (by omega), ok_bind, hregions, ok_bind, hitems]
    exact ⟨_, rfl⟩
  | list _ => cases size
  | @container name fields nonempty _ ih =>
    rw [fixedSize?] at size
    split at size
    · rename_i fixed
      have hdecode : ∀ f ∈ fields, ∀ b : Bytes, f.kind.fixedSize? = some b.length →
          ∃ v, f.kind.decode m (depth + 1) b = .ok v := by
        intro f hf b hb
        have hdeepest := nesting_le_deepest hf
        rw [nesting] at levels
        exact ih f hf hb (by omega)
      obtain ⟨ss, values, hss, hvalues⟩ :=
        decodeFields_of_fixed fixed (Option.some_inj.1 size).symm hdecode
      rw [nesting] at levels
      rw [decode, Wire.checkDepth, if_neg (by omega), ok_bind, hss, ok_bind, hvalues]
      exact ⟨_, rfl⟩
    · cases size

end Kind

namespace Schema

variable {s : Schema} {m : Nat} {data : Bytes}

/-- Every byte string of its size is a record of a schema of fixed size. -/
theorem exists_decode_of_length (valid : s.Valid) (fixed : s.isFixedSize = true)
    (levels : s.nesting ≤ m) (hlen : data.length = s.fixedPartSize) :
    ∃ r, s.decode m data = .ok r := by
  obtain ⟨-, sound⟩ := Kind.sound_container.1 (valid_iff.1 valid)
  have hdecode : ∀ f ∈ s.fields, ∀ b : Bytes, f.kind.fixedSize? = some b.length →
      ∃ v, f.kind.decode m 0 b = .ok v := by
    intro f hf b hb
    refine Kind.exists_decode_of_length (sound f hf) hb ?_
    rw [Nat.zero_add]
    exact (Kind.nesting_le_deepest hf).trans levels
  obtain ⟨ss, r, hss, hr⟩ := Kind.decodeFields_of_fixed fixed hlen hdecode
  rw [decode, valid, ok_bind, hss, ok_bind, hr]
  exact ⟨r, rfl⟩

/-- For a schema of fixed size bytes are missing only at the end of the message. -/
theorem size_of_shortBuffer (valid : s.Valid) (fixed : s.isFixedSize = true)
    (levels : s.nesting ≤ m) {needed actual : Nat}
    (h : s.decode m data = .error (.shortBuffer needed actual)) :
    needed = s.fixedPartSize ∧ actual = data.length := by
  rcases Nat.lt_trichotomy data.length s.fixedPartSize with hlt | heq | hgt
  · rw [decode, valid, ok_bind, Wire.containerSpans, ← fixedPartSize, if_pos hlt] at h
    cases h
    exact ⟨rfl, rfl⟩
  · obtain ⟨r, hr⟩ := exists_decode_of_length valid fixed levels heq
    rw [hr] at h
    cases h
  · rw [decode, valid, ok_bind, Wire.containerSpans, ← fixedPartSize, if_neg (by omega),
      if_pos ⟨fixed, by omega⟩] at h
    cases h

end Schema

end SszRecord

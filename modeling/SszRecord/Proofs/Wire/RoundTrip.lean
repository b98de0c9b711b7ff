/-
Decoding undoes encoding, and encoding undoes decoding.

* `Kind.decode_layout` : the layout of a placed value is decoded as this value, unless it is nested
  too deeply for the limit;
* `Kind.layout_of_decode` : whatever is decoded is placed, and its layout is what it was read from;
* `Schema.decode_of_encode`, `Schema.encode_of_decode` : the same for records.
-/
import Mathlib
import SszRecord.Proofs.Nesting
import SszRecord.Proofs.Wire.Layout

namespace SszRecord

namespace Kind

variable {m depth : Nat}

theorem checkDepth_eq (m n : Nat) : Wire.checkDepth m n = limited m n () := by
  rw [Wire.checkDepth]
  by_cases h : m < n
  · rw [if_pos h, limited_of_lt h]
  · rw [if_neg h, limited_of_le (Nat.le_of_not_lt h)]

/-! ### Reading what was written -/

/-- The regions of items are found in the layout of their sequence. -/
theorem itemRegions_layout {item : Kind} (sound : item.Sound) {count : Wire.Count}
    (hcount : count ≠ .exactly 0) {items : List Value} (hlen : count.Admits items.length)
    (each : ∀ v ∈ items, item.Holds v) (hplace : Wire.Placeable (items.map item.part)) :
    Wire.itemRegions item count (Wire.region (items.map item.part)) =
      .ok (items.map item.layout) := by
  have hparts : (items.map item.layout).map (Wire.Part.mk item.isFixedSize) =
      items.map item.part := by
    rw [List.map_map]
    rfl
  rw [Wire.itemRegions_eq_ok sound hcount, hparts, List.length_map]
  exact ⟨hlen, List.forall_mem_map.2 fun v hv => size?_part (each v hv), hplace, rfl⟩

theorem decodeItems_layout {item : Kind} {items : List Value} (hdepth : depth ≤ m)
    (h : ∀ v ∈ items, item.decode m depth (item.layout v) = limited m (depth + v.nesting) v) :
    mapItems (fun r => item.decode m depth r) (items.map item.layout) =
      limited m (depth + Value.deepest items) items := by
  rw [mapItems_map, mapItems_limited id hdepth h, List.map_id, List.map_id']

theorem decodeFields_layout {fields : List (Field Kind)} {values : List Value} (hdepth : depth ≤ m)
    (h : List.Forall₂ (fun f v =>
      f.kind.decode m depth (f.kind.layout v) = limited m (depth + v.nesting) v) fields values) :
    decodeFields m fields depth ((parts fields values).map Wire.Part.bytes) =
      limited m (depth + Value.deepest values) values := by
  induction h with
  | nil => exact (limited_of_le hdepth _).symm
  | @cons f v fields values hf _ ih =>
    rw [parts_cons, List.map_cons, decodeFields, part, hf, ih, Value.deepest,
      ← Nat.add_max_add_left]
    simp only [pure_eq_ok, limited_map]
    exact limited_bind v fun v => v :: values

/-- The fields of a container are found in its layout and decoded from it. -/
theorem decodeFields_region {fields : List (Field Kind)} {values : List Value} (hdepth : depth ≤ m)
    (hholds : FieldsHold fields values) (hplace : Wire.Placeable (parts fields values))
    (h : List.Forall₂ (fun f v =>
      f.kind.decode m depth (f.kind.layout v) = limited m (depth + v.nesting) v) fields values) :
    (Wire.containerSpans fields (Wire.region (parts fields values)) >>= fun ss =>
      decodeFields m fields depth (ss.map fun s => s.slice (Wire.region (parts fields values)))) =
      limited m (depth + Value.deepest values) values := by
  obtain ⟨ss, hss, hbytes⟩ := Wire.containerSpans_region (shape_parts hholds) hplace
  rw [hss, ok_bind, hbytes, decodeFields_layout hdepth h]

/-- **The layout of a placed value is decoded as this value**, as far as the limit allows. -/
theorem decode_layout {k : Kind} {v : Value} (h : k.Holds v) (hp : k.Placed v)
    (hdepth : depth ≤ m) :
    k.decode m depth (k.layout v) = limited m (depth + v.nesting) v := by
  induction h generalizing depth with
  | bytes _ length =>
    rw [decode, layout, Wire.exactLength_eq_ok.2 length]
    exact (limited_of_le hdepth _).symm
  | @uint w u width fits =>
    have hlen : (Bytes.ofNat w u.toNat).length ≤ 32 := by
      rw [Bytes.length_ofNat]
      exact width_le width
    -- nothing is cut off, because the integer fits its width
    have hu : UInt256.ofNat (Bytes.toNat (Bytes.ofNat w u.toNat)) = u := by
      rw [Bytes.toNat_ofNat, Nat.mod_eq_of_lt ((UInt256.fitsWidth_iff u w).1 fits),
        UInt256.ofNat_toNat]
    rw [decode, layout, Wire.exactLength_eq_ok.2 (Bytes.length_ofNat _ _), ok_bind,
      UInt256.ofBytes?_eq hlen, hu]
    exact (limited_of_le hdepth _).symm
  | byteList length =>
    rw [decode, layout, if_neg (Nat.not_lt.2 length)]
    exact (limited_of_le hdepth _).symm
  | vector pos sound length each ih =>
    obtain ⟨hplace, hitems⟩ := hp
    rw [decode, layout_vector, checkDepth_eq,
      itemRegions_layout sound (Wire.Count.exactly_ne pos) length each hplace]
    refine limited_enter fun hdepth => ?_
    rw [ok_bind, decodeItems_layout hdepth fun v hv => ih v hv (hitems v hv) hdepth]
    exact limited_map _ Value.vector
  | list sound length each ih =>
    obtain ⟨hplace, hitems⟩ := hp
    rw [decode, layout_list, checkDepth_eq,
      itemRegions_layout sound Wire.Count.atMost_ne length each hplace]
    refine limited_enter fun hdepth => ?_
    rw [ok_bind, decodeItems_layout hdepth fun v hv => ih v hv (hitems v hv) hdepth]
    exact limited_map _ Value.list
  | container nonempty length each ih =>
    obtain ⟨hplace, hfields⟩ := hp
    rw [fieldsPlaced_iff length, List.forall₂_iff_zip] at hfields
    rw [decode, layout, checkDepth_eq]
    refine limited_enter fun hdepth => ?_
    -- every field is decoded from its own part, so the induction hypotheses apply side by side
    have hdecode := List.forall₂_iff_zip.2 ⟨length, fun hp => ih _ hp (hfields.2 hp) hdepth⟩
    rw [← bind_assoc, decodeFields_region hdepth (forall₂_fields length each) hplace hdecode]
    exact limited_map _ Value.container

/-! ### Writing what was read -/

theorem part_eq_of_bytes {ps qs : List Wire.Part}
    (hsize : ps.map Wire.Part.size? = qs.map Wire.Part.size?)
    (hbytes : ps.map Wire.Part.bytes = qs.map Wire.Part.bytes) : ps = qs := by
  induction ps generalizing qs with
  | nil =>
    rw [List.map_nil, eq_comm, List.map_eq_nil_iff] at hsize
    exact hsize.symm
  | cons p ps ih =>
    cases qs with
    | nil => cases hsize
    | cons q qs =>
      rw [List.map_cons, List.map_cons, List.cons.injEq] at hsize hbytes
      -- a part with a size stands in place, and one without is a payload
      have hinline : p.isInline = q.isInline := by
        rw [Wire.Part.isInline_eq, hsize.1, ← Wire.Part.isInline_eq]
      rw [ih hsize.2 hbytes.2]
      cases p
      cases q
      cases hinline
      cases hbytes.1
      rfl

/-- What decoding says about the value it gives. -/
abbrev WrittenAs (k : Kind) (v : Value) (data : Bytes) : Prop :=
  k.Holds v ∧ k.Placed v ∧ k.layout v = data

theorem layout_of_decodeItems {item : Kind} {bs : List Bytes} {items : List Value}
    (h : List.Forall₂ (fun b v => item.WrittenAs v b) bs items) :
    (∀ v ∈ items, item.Holds v) ∧ (∀ v ∈ items, item.Placed v) ∧ items.map item.layout = bs := by
  induction h with
  | nil => exact ⟨List.forall_mem_nil _, List.forall_mem_nil _, rfl⟩
  | cons hv _ ih =>
    obtain ⟨hholds, hplaced, hlayout⟩ := hv
    obtain ⟨hholdss, hplaceds, hlayouts⟩ := ih
    rw [List.map_cons, hlayout, hlayouts]
    exact ⟨List.forall_mem_cons.2 ⟨hholds, hholdss⟩, List.forall_mem_cons.2 ⟨hplaced, hplaceds⟩,
      rfl⟩

theorem layout_of_decodeFields {fields : List (Field Kind)} {bs : List Bytes} {values : List Value}
    (ih : ∀ f ∈ fields, ∀ v data, f.kind.decode m depth data = .ok v → f.kind.WrittenAs v data)
    (hlen : fields.length = bs.length) (h : decodeFields m fields depth bs = .ok values) :
    FieldsHold fields values ∧ FieldsPlaced fields values ∧
      (parts fields values).map Wire.Part.bytes = bs := by
  induction fields generalizing bs values with
  | nil =>
    rw [List.eq_nil_of_length_eq_zero hlen.symm] at h ⊢
    cases h
    exact ⟨.nil, trivial, rfl⟩
  | cons f fields ihfields =>
    obtain ⟨hf, hfields⟩ := List.forall_mem_cons.1 ih
    cases bs with
    | nil => cases hlen
    | cons b bs =>
      rw [decodeFields, bind_eq_ok] at h
      obtain ⟨v, hv, h⟩ := h
      obtain ⟨vs, hvs, h⟩ := bind_eq_ok.1 h
      cases h
      obtain ⟨hholds, hplaced, hlayout⟩ := hf v b hv
      obtain ⟨hholdss, hplaceds, hlayouts⟩ := ihfields hfields (Nat.succ.inj hlen) hvs
      rw [parts_cons, List.map_cons, hlayouts, part, hlayout]
      exact ⟨.cons hholds hholdss, ⟨hplaced, hplaceds⟩, rfl⟩

/-- What is decoded from the regions of items is written as the region around them. -/
theorem layout_of_itemRegions {item : Kind} (sound : item.Sound) {count : Wire.Count}
    (hcount : count ≠ .exactly 0) {data : Bytes} {bs : List Bytes} {items : List Value}
    (hregions : Wire.itemRegions item count data = .ok bs)
    (h : List.Forall₂ (fun b v => item.WrittenAs v b) bs items) :
    count.Admits items.length ∧ (∀ v ∈ items, item.Holds v) ∧
      (Wire.Placeable (items.map item.part) ∧ ∀ v ∈ items, item.Placed v) ∧
        Wire.region (items.map item.part) = data := by
  obtain ⟨hadmits, -, hplace, hregion⟩ := (Wire.itemRegions_eq_ok sound hcount).1 hregions
  obtain ⟨hholds, hplaced, rfl⟩ := layout_of_decodeItems h
  rw [List.map_map] at hplace hregion
  rw [List.length_map] at hadmits
  exact ⟨hadmits, hholds, ⟨hplace, hplaced⟩, hregion⟩

/-- What is decoded from the spans of fields is written as the region around them. -/
theorem layout_of_containerSpans {fields : List (Field Kind)} {data : Bytes}
    {ss : List Wire.Span} {values : List Value}
    (ih : ∀ f ∈ fields, ∀ v data, f.kind.decode m depth data = .ok v → f.kind.WrittenAs v data)
    (hspans : Wire.containerSpans fields data = .ok ss)
    (h : decodeFields m fields depth (ss.map fun s => s.slice data) = .ok values) :
    FieldsHold fields values ∧
      (Wire.Placeable (parts fields values) ∧ FieldsPlaced fields values) ∧
        Wire.region (parts fields values) = data := by
  obtain ⟨ps, shape, hplace, hregion, hbytes⟩ := Wire.parts_of_containerSpans hspans
  have hlen : fields.length = (ss.map fun s => s.slice data).length := by
    have := congrArg List.length shape
    rwa [List.length_map, List.length_map, ← List.length_map Wire.Part.bytes, hbytes] at this
  obtain ⟨hholds, hplaced, hlayout⟩ := layout_of_decodeFields ih hlen h
  -- the parts that were found are those of the values that were decoded from them
  obtain rfl : parts fields values = ps :=
    part_eq_of_bytes ((shape_parts hholds).symm.trans shape) (hlayout.trans hbytes.symm)
  exact ⟨hholds, ⟨hplace, hplaced⟩, hregion⟩

/-- **Whatever is decoded is written as what it was read from.** -/
theorem layout_of_decode {k : Kind} (hk : k.Sound) {v : Value} {data : Bytes}
    (h : k.decode m depth data = .ok v) : k.WrittenAs v data := by
  induction hk generalizing depth v data with
  | bytes pos =>
    rw [decode, bind_eq_ok] at h
    obtain ⟨⟨⟩, hlen, h⟩ := h
    cases h
    exact ⟨.bytes pos (Wire.exactLength_eq_ok.1 hlen), trivial, rfl⟩
  | @uint w width =>
    rw [decode, bind_eq_ok] at h
    obtain ⟨⟨⟩, hlen, h⟩ := h
    have hw := Wire.exactLength_eq_ok.1 hlen
    have hle : data.length ≤ 32 := by
      rw [hw]
      exact width_le width
    rw [UInt256.ofBytes?_eq hle] at h
    cases h
    refine ⟨.uint width ?_, trivial, ?_⟩
    · rw [UInt256.fitsWidth_iff, UInt256.toNat_ofBytes hle, ← hw]
      exact Bytes.toNat_lt data
    · rw [layout, UInt256.toNat_ofBytes hle, ← hw, Bytes.ofNat_toNat]
  | byteList =>
    rw [decode, refuse_eq_ok] at h
    obtain ⟨hlen, h⟩ := h
    cases h
    exact ⟨.byteList (Nat.le_of_not_lt hlen), trivial, rfl⟩
  | vector pos sound ih =>
    simp only [decode, bind_eq_ok, pure_eq_ok, Except.ok.injEq] at h
    obtain ⟨_, -, bs, hregions, items, hitems, rfl⟩ := h
    obtain ⟨hadmits, hholds, hplaced, hregion⟩ :=
      layout_of_itemRegions sound (Wire.Count.exactly_ne pos) hregions
        ((mapItems_eq_ok.1 hitems).imp fun _ _ => ih)
    exact ⟨.vector pos sound hadmits hholds, hplaced, (layout_vector ..).trans hregion⟩
  | list sound ih =>
    simp only [decode, bind_eq_ok, pure_eq_ok, Except.ok.injEq] at h
    obtain ⟨_, -, bs, hregions, items, hitems, rfl⟩ := h
    obtain ⟨hadmits, hholds, hplaced, hregion⟩ :=
      layout_of_itemRegions sound Wire.Count.atMost_ne hregions
        ((mapItems_eq_ok.1 hitems).imp fun _ _ => ih)
    exact ⟨.list sound hadmits hholds, hplaced, (layout_list ..).trans hregion⟩
  | container nonempty _ ih =>
    simp only [decode, bind_eq_ok, pure_eq_ok, Except.ok.injEq] at h
    obtain ⟨_, -, ss, hspans, values, hvalues, rfl⟩ := h
    obtain ⟨hholds, hplaced, hregion⟩ :=
      layout_of_containerSpans (fun f hf _ _ => ih f hf) hspans hvalues
    refine ⟨holds_container.2 ⟨nonempty, hholds⟩, hplaced, ?_⟩
    rw [layout, hregion]

end Kind

namespace Schema

theorem decode_layout {s : Schema} {r : Record} (hholds : s.kind.Holds (.container r))
    (hplaced : s.kind.Placed (.container r)) (m : Nat) :
    s.decode m (s.layout r) = limited m (Record.nesting r) r := by
  obtain ⟨-, hfields⟩ := Kind.holds_container.1 hholds
  obtain ⟨hplace, hinner⟩ := hplaced
  rw [Kind.fieldsPlaced_iff hfields.length_eq, List.forall₂_iff_zip] at hinner
  have hvalid : s.validate = .ok () := (holds_iff.1 hholds).1
  have hdecode := List.forall₂_iff_zip.2 ⟨hfields.length_eq, fun hp =>
    Kind.decode_layout (List.forall₂_zip hfields hp) (hinner.2 hp) (Nat.zero_le m)⟩
  rw [decode, layout, kind, Kind.layout, hvalid, ok_bind,
    Kind.decodeFields_region (Nat.zero_le m) hfields hplace hdecode, Nat.zero_add, Record.nesting]

theorem layout_of_decode {s : Schema} {m : Nat} {data : Bytes} {r : Record}
    (h : s.decode m data = .ok r) : s.kind.WrittenAs (.container r) data := by
  simp only [decode, bind_eq_ok] at h
  obtain ⟨⟨⟩, hvalid, ss, hspans, hvalues⟩ := h
  obtain ⟨nonempty, hsound⟩ := Kind.sound_container.1 (valid_iff.1 hvalid)
  obtain ⟨hholds, hplaced, hregion⟩ := Kind.layout_of_containerSpans
    (fun f hf _ _ h => Kind.layout_of_decode (hsound f hf) h) hspans hvalues
  refine ⟨Kind.holds_container.2 ⟨nonempty, hholds⟩, hplaced, ?_⟩
  rw [kind, Kind.layout, hregion]

/-- **Decoding undoes encoding.**  What a record is encoded as is decoded as this record if its
levels are within the limit, and is refused for its nesting otherwise. -/
theorem decode_of_encode {s : Schema} {r : Record} {data : Bytes} (h : s.encode r = .ok data)
    (m : Nat) :
    (Record.nesting r ≤ m → s.decode m data = .ok r) ∧
      (m < Record.nesting r → s.decode m data = .error (.nestingTooDeep m)) := by
  obtain ⟨hr, hplaced, rfl⟩ := encode_eq_ok.1 h
  rw [decode_layout (holds_iff.2 hr) hplaced]
  exact ⟨fun hm => limited_of_le hm r, fun hm => limited_of_lt hm r⟩

theorem decode_of_encode_lists :
    let s : Schema := ⟨"Log", [⟨"lines", .list (.byteList 3) 4, .reject⟩,
      ⟨"size", .uint 2, .reject⟩, ⟨"tags", .vector (.list (.uint 1) 2) 2, .reject⟩]⟩
    let r : Record := [.list [.bytes [1, 2], .bytes []], .uint (UInt256.ofNat 300),
      .vector [.list [], .list [.uint (UInt256.ofNat 7)]]]
    let data : Bytes := [10, 0, 0, 0, 44, 1, 20, 0, 0, 0, 8, 0, 0, 0, 10, 0, 0, 0, 1, 2,
      8, 0, 0, 0, 8, 0, 0, 0, 7]
    s.encode r = .ok data ∧ s.decode 2 data = .ok r ∧
      s.decode 1 data = .error (.nestingTooDeep 1) := by
  intro s r data
  have h : s.encode r = .ok data := by
    unfold s r data
    rfl
  exact ⟨h, (decode_of_encode h 2).1 (by decide), (decode_of_encode h 1).2 (by decide)⟩

/-- **The wire format is canonical.**  Whatever is decoded fits the schema and is encoded as the
bytes it was read from, so no other bytes are decoded as the same record. -/
theorem encode_of_decode {s : Schema} {m : Nat} {data : Bytes} {r : Record}
    (h : s.decode m data = .ok r) :
    s.Conforms r ∧ s.encode r = .ok data ∧
      ∀ m' data', s.decode m' data' = .ok r → data' = data := by
  obtain ⟨hholds, hplaced, hlayout⟩ := layout_of_decode h
  refine ⟨(holds_iff.1 hholds).2, encode_eq_ok.2 ⟨holds_iff.1 hholds, hplaced, hlayout⟩, ?_⟩
  intro m' data' h'
  obtain ⟨-, -, hlayout'⟩ := layout_of_decode h'
  rw [← hlayout', hlayout]

end Schema

end SszRecord

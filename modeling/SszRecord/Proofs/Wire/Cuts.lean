/-
Where regions are cut.

Decoding goes from a region to the regions of its members, and cuts the one out of the other.  The
spans that it cuts, and the regions at which it arrives in this way, are said here without a look at
what becomes of the members, so that they are there as well when a member is refused.

* `Kind.Cuts` : the spans that are cut out of a region, each with the kind of what it holds;
* `Kind.Arrives` : the regions at which decoding arrives;
* `Kind.Cuts.within_region` : such a span lies in its region;
* `Wire.map_itemCuts` : the regions of items are what is cut along these spans.
-/
import Mathlib
import SszRecord.Proofs.Wire.Reading
import SszRecord.Wire.Machine

namespace SszRecord

namespace Wire

variable {data : Bytes}

/-! ### Spans that lie in a region -/

/-- A span lies in a region of `length` bytes. -/
def Span.Within (s : Span) (length : Nat) : Prop := s.start ≤ s.stop ∧ s.stop ≤ length

theorem slice?_eq {span : Span} {region : Bytes} (h : span.Within region.length) :
    span.slice? region = some (span.slice region) := by
  obtain ⟨hle, hstop⟩ := h
  rw [Span.slice?, if_pos ⟨hle, hstop⟩, List.drop_take, Span.slice]

theorem within_spans {stop previous : Nat} {offsets : List Nat}
    (h : checkOffsets stop previous offsets = .ok ()) :
    ∀ span ∈ spans stop offsets, span.Within stop := by
  induction offsets generalizing previous with
  | nil => exact List.forall_mem_nil _
  | cons o offsets ih =>
    rw [checkOffsets, refuse_eq_ok, not_or, not_lt, not_lt] at h
    obtain ⟨⟨hstop, -⟩, h⟩ := h
    cases offsets with
    | nil => exact List.forall_mem_singleton.2 ⟨hstop, le_rfl⟩
    | cons next rest =>
      have hrest := ih h
      rw [checkOffsets, refuse_eq_ok, not_or, not_lt, not_lt] at h
      exact List.forall_mem_cons.2 ⟨⟨h.1.2, h.1.1⟩, hrest⟩

/-- Values in place lie in the inline part. -/
theorem within_readSlots {fields : List (Field Kind)} {isz start : Nat} {isFirst : Bool}
    {sl : List Slot} (h : readSlots data isz start isFirst fields = .ok sl) {span : Span}
    (mem : .inline span ∈ sl) : span.Within (start + Kind.fixedPartSize fields) := by
  induction fields generalizing start isFirst sl with
  | nil =>
    cases h
    cases mem
  | cons f fields ih =>
    rw [Kind.fixedPartSize]
    cases hsize : f.kind.fixedSize? with
    | some n =>
      rw [Option.getD_some]
      obtain ⟨rest, hrest, rfl⟩ := (readSlots_of_fixed hsize).1 h
      rcases List.mem_cons.1 mem with heq | mem
      · cases heq
        exact ⟨Nat.le_add_right _ _, Nat.add_le_add_left (Nat.le_add_right _ _) _⟩
      · rw [← Nat.add_assoc]
        exact ih hrest mem
    | none =>
      rw [Option.getD_none]
      obtain ⟨o, -, -, rest, hrest, rfl⟩ := (readSlots_of_variable hsize).1 h
      rcases List.mem_cons.1 mem with heq | mem
      · cases heq
      · rw [← Nat.add_assoc]
        exact ih hrest mem

/-- The span of a field is that of a value in place or that of a payload. -/
theorem mem_fieldSpans {sl : List Slot} {payloads ss : List Span}
    (h : fieldSpans sl payloads = .ok ss) {span : Span} (mem : span ∈ ss) :
    .inline span ∈ sl ∨ span ∈ payloads := by
  induction sl generalizing payloads ss with
  | nil =>
    cases h
    cases mem
  | cons slot sl ih =>
    cases slot with
    | inline first =>
      obtain ⟨rest, hrest, rfl⟩ := fieldSpans_inline.1 h
      rcases List.mem_cons.1 mem with rfl | mem
      · exact .inl List.mem_cons_self
      · exact (ih hrest mem).imp_left (List.mem_cons_of_mem _)
    | offset o =>
      obtain ⟨first, payloads, rest, rfl, hrest, rfl⟩ := fieldSpans_offset.1 h
      rcases List.mem_cons.1 mem with rfl | mem
      · exact .inr List.mem_cons_self
      · exact (ih hrest mem).imp (List.mem_cons_of_mem _) (List.mem_cons_of_mem _)

theorem within_containerSpans {fields : List (Field Kind)} {ss : List Span}
    (h : containerSpans fields data = .ok ss) : ∀ span ∈ ss, span.Within data.length := by
  intro span mem
  rw [containerSpans] at h
  simp only [throw_eq_error, error_bind, refuse_eq_ok, bind_eq_ok] at h
  obtain ⟨hshort, -, sl, hsl, payloads, hpayloads, hss⟩ := h
  rcases mem_fieldSpans hss mem with hinline | hpayload
  · obtain ⟨hle, hstop⟩ := within_readSlots hsl hinline
    exact ⟨hle, by omega⟩
  · rw [spansOfOffsets, bind_eq_ok] at hpayloads
    obtain ⟨⟨⟩, hcheck, hpayloads⟩ := hpayloads
    cases hpayloads
    exact within_spans hcheck span hpayload

theorem length_packedSpans (size start count : Nat) :
    (packedSpans size start count).length = count := by
  induction count generalizing start with
  | zero => rfl
  | succ count ih => rw [packedSpans, List.length_cons, ih]

theorem slice_packedSpans (size start count : Nat) (data : Bytes) :
    (packedSpans size start count).map (fun s => s.slice data) =
      Bytes.pieces size count (data.drop start) := by
  induction count generalizing start with
  | zero => rfl
  | succ count ih =>
    rw [packedSpans, List.map_cons, ih, Bytes.pieces, List.drop_drop, Span.slice,
      Nat.add_sub_cancel_left]

theorem within_packedSpans (size start count : Nat) :
    ∀ span ∈ packedSpans size start count, span.Within (start + size * count) := by
  induction count generalizing start with
  | zero => exact List.forall_mem_nil _
  | succ count ih =>
    have hrest := ih (start + size)
    rw [Nat.add_assoc, Nat.add_comm size, ← Nat.mul_succ] at hrest
    refine List.forall_mem_cons.2 ⟨⟨Nat.le_add_right _ _, ?_⟩, hrest⟩
    rw [Nat.mul_succ]
    exact Nat.add_le_add_left (Nat.le_add_left _ _) _

/-- The spans that the items of a sequence are cut from. -/
def itemCuts (item : Kind) (count : Count) (region : Bytes) : Except CodecError (List Span) := do
  let regions ← itemRegions item count region
  match item.fixedSize? with
  | some size => return packedSpans size 0 regions.length
  | none => itemSpans region regions.length

section

variable {item : Kind} {size : Nat}

theorem itemCuts_of_size (hsize : item.fixedSize? = some size) (count : Count) :
    itemCuts item count data =
      (packedItems size count data >>= fun bs => .ok (packedSpans size 0 bs.length)) := by
  rw [itemCuts, itemRegions, hsize]
  rfl

theorem itemCuts_exactly_of_size (hsize : item.fixedSize? = some size) (n : Nat) :
    itemCuts item (.exactly n) data =
      (exactLength data (size * n) >>= fun _ => .ok (packedSpans size 0 n)) := by
  rw [itemCuts_of_size hsize, packedItems.eq_def]
  simp only [bind_assoc, pure_eq_ok, ok_bind, Bytes.length_pieces]

theorem itemCuts_atMost_of_size (hsize : item.fixedSize? = some size) (max : Nat) :
    itemCuts item (.atMost max) data =
      if data.length % size ≠ 0 then .error (.misalignedList data.length size)
      else if max < data.length / size then .error (.listTooLong (data.length / size) max)
      else .ok (packedSpans size 0 (data.length / size)) := by
  rw [itemCuts_of_size hsize, packedItems.eq_def]
  simp only [throw_eq_error, error_bind, pure_eq_ok]
  split
  · rfl
  · split
    · rfl
    · rw [ok_bind, Bytes.length_pieces]

/-- A table that has been read is read again in the same way. -/
theorem itemSpans_again (n : Nat) :
    ((itemSpans data n >>= fun ss => .ok (ss.map fun s => s.slice data)) >>= fun bs =>
      itemSpans data bs.length) = itemSpans data n := by
  cases h : itemSpans data n with
  | error e => rfl
  | ok ss => rw [ok_bind, ok_bind, List.length_map, length_itemSpans h, h]

theorem itemCuts_of_table (hsize : item.fixedSize? = none) (count : Count) :
    itemCuts item count data =
      (tabledItems count data >>= fun bs => itemSpans data bs.length) := by
  rw [itemCuts, itemRegions, hsize]

theorem itemCuts_exactly_of_table (hsize : item.fixedSize? = none) (n : Nat) :
    itemCuts item (.exactly n) data =
      ((if data.length < n * offsetSize then .error (.shortBuffer (n * offsetSize) data.length)
        else .ok n) >>= itemSpans data) := by
  rw [itemCuts_of_table hsize, tabledItems.eq_def]
  by_cases h : data.length < n * offsetSize
  · simp only [if_pos h, error_bind]
  · simp only [if_neg h, ok_bind]
    exact itemSpans_again n

theorem itemCuts_atMost_of_table (hsize : item.fixedSize? = none) (max : Nat) :
    itemCuts item (.atMost max) data = itemCount data max >>= itemSpans data := by
  rw [itemCuts_of_table hsize, tabledItems.eq_def]
  simp only [bind_assoc]
  refine bind_congr fun n => ?_
  rw [← bind_assoc]
  exact itemSpans_again n

end

/-- The regions of items are what these spans are cut from. -/
theorem slice_itemCuts {item : Kind} {count : Count} {bs : List Bytes}
    (h : itemRegions item count data = .ok bs) :
    ∃ ss, itemCuts item count data = .ok ss ∧ ss.map (fun s => s.slice data) = bs := by
  rw [itemCuts, h, ok_bind]
  rw [itemRegions] at h
  cases hsize : item.fixedSize? with
  | some size =>
    rw [hsize] at h
    have hpieces : ∃ n, bs = Bytes.pieces size n data := by
      cases count with
      | exactly n =>
        obtain ⟨_, -, h⟩ := bind_eq_ok.1 h
        cases h
        exact ⟨_, rfl⟩
      | atMost max =>
        simp only [packedItems.eq_def, throw_eq_error, error_bind, refuse_eq_ok] at h
        obtain ⟨-, -, h⟩ := h
        cases h
        exact ⟨_, rfl⟩
    obtain ⟨n, rfl⟩ := hpieces
    refine ⟨_, rfl, ?_⟩
    rw [Bytes.length_pieces, slice_packedSpans, List.drop_zero]
  | none =>
    rw [hsize] at h
    have hspans : ∃ n ss, itemSpans data n = .ok ss ∧ ss.map (fun s => s.slice data) = bs := by
      cases count with
      | exactly n =>
        simp only [tabledItems.eq_def, error_bind, refuse_eq_ok, ok_bind, bind_eq_ok] at h
        obtain ⟨-, ss, hss, h⟩ := h
        cases h
        exact ⟨n, ss, hss, rfl⟩
      | atMost max =>
        simp only [tabledItems.eq_def, bind_eq_ok] at h
        obtain ⟨n, -, ss, hss, h⟩ := h
        cases h
        exact ⟨n, ss, hss, rfl⟩
    obtain ⟨n, ss, hss, rfl⟩ := hspans
    refine ⟨ss, ?_, rfl⟩
    rw [List.length_map, length_itemSpans hss, hss]

/-- What is cut along the spans of items is their regions. -/
theorem map_itemCuts (item : Kind) (count : Count) (region : Bytes) :
    (itemCuts item count region >>= fun ss => .ok (ss.map fun s => s.slice region)) =
      itemRegions item count region := by
  cases h : itemRegions item count region with
  | error e => rw [itemCuts, h, error_bind, error_bind]
  | ok bs =>
    obtain ⟨ss, hss, rfl⟩ := slice_itemCuts h
    rw [hss, ok_bind]

theorem within_itemSpans {n : Nat} {ss : List Span} (h : itemSpans data n = .ok ss) :
    ∀ span ∈ ss, span.Within data.length := by
  rw [itemSpans] at h
  split at h
  · cases h
    exact List.forall_mem_nil _
  · simp only [throw_eq_error, error_bind, refuse_eq_ok, bind_eq_ok] at h
    obtain ⟨-, offsets, -, -, hss⟩ := h
    rw [spansOfOffsets, bind_eq_ok] at hss
    obtain ⟨⟨⟩, hcheck, hss⟩ := hss
    cases hss
    exact within_spans hcheck

theorem within_itemCuts {item : Kind} (sound : item.Sound) {count : Count} {ss : List Span}
    (h : itemCuts item count data = .ok ss) : ∀ span ∈ ss, span.Within data.length := by
  rw [itemCuts, bind_eq_ok] at h
  obtain ⟨bs, hbs, h⟩ := h
  cases hsize : item.fixedSize? with
  | some size =>
    rw [itemRegions, hsize] at hbs
    rw [hsize] at h
    cases h
    obtain ⟨-, heach, rfl⟩ := (packedItems_eq_ok (sound.fixedSize_pos hsize)).1 hbs
    have hwithin := within_packedSpans size 0 bs.length
    rwa [Nat.zero_add, ← Bytes.length_flatten heach] at hwithin
  | none =>
    rw [hsize] at h
    exact within_itemSpans h

end Wire

namespace Kind

/-- The spans that are cut out of a region where a kind belongs, each with the kind of what it
holds. -/
inductive Cuts : Kind → Bytes → Wire.Span → Kind → Prop
  | vector {item : Kind} {n : Nat} {region : Bytes} {ss : List Wire.Span} {span : Wire.Span}
      (h : Wire.itemCuts item (.exactly n) region = .ok ss) (mem : span ∈ ss) :
      Cuts (.vector item n) region span item
  | list {item : Kind} {max : Nat} {region : Bytes} {ss : List Wire.Span} {span : Wire.Span}
      (h : Wire.itemCuts item (.atMost max) region = .ok ss) (mem : span ∈ ss) :
      Cuts (.list item max) region span item
  | field {name : String} {fields : List (Field Kind)} {region : Bytes} {ss : List Wire.Span}
      {f : Field Kind} {span : Wire.Span} (h : Wire.containerSpans fields region = .ok ss)
      (mem : (f, span) ∈ fields.zip ss) : Cuts (.container name fields) region span f.kind

/-- The regions at which decoding arrives, each with the kind that belongs there.  Faults of other
regions are not looked at, so there may be more of them than decoding gets to. -/
inductive Arrives (k : Kind) (data : Bytes) : Kind → Bytes → Prop
  | start : Arrives k data k data
  | enter {k' inner : Kind} {region : Bytes} {span : Wire.Span} (h : Arrives k data k' region)
      (cut : k'.Cuts region span inner) : Arrives k data inner (span.slice region)

theorem Cuts.sound {k inner : Kind} (hk : k.Sound) {region : Bytes} {span : Wire.Span}
    (h : k.Cuts region span inner) : inner.Sound := by
  cases h with
  | vector _ _ => exact (sound_vector.1 hk).2
  | list _ _ => exact sound_list.1 hk
  | field _ mem => exact (sound_container.1 hk).2 _ (List.of_mem_zip mem).1

theorem Cuts.within_region {k inner : Kind} (hk : k.Sound) {region : Bytes} {span : Wire.Span}
    (h : k.Cuts region span inner) : span.Within region.length := by
  cases h with
  | vector h mem => exact Wire.within_itemCuts (sound_vector.1 hk).2 h span mem
  | list h mem => exact Wire.within_itemCuts (sound_list.1 hk) h span mem
  | field h mem => exact Wire.within_containerSpans h span (List.of_mem_zip mem).2

theorem Arrives.sound {k inner : Kind} (hk : k.Sound) {data region : Bytes}
    (h : k.Arrives data inner region) : inner.Sound := by
  induction h with
  | start => exact hk
  | enter _ cut ih => exact cut.sound ih

/-- What lies on the way from a region that is cut out lies on the way from the region around it. -/
theorem Cuts.arrives {k inner k' : Kind} {region region' : Bytes} {span : Wire.Span}
    (cut : k.Cuts region span inner) (h : inner.Arrives (span.slice region) k' region') :
    k.Arrives region k' region' := by
  induction h with
  | start => exact .enter .start cut
  | enter _ cut' ih => exact .enter ih cut'

end Kind

end SszRecord

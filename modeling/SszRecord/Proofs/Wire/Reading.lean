/-
Taking regions apart.

Decoding reads a container or a sequence in passes over its bytes.  Together the passes accept
exactly the regions, and they give back the parts that a region was written from:

* `containerSpans_eq_ok` : for the fields of a container;
* `itemRegions_eq_ok` : for the items of a sequence, packed or behind a table.

So an accepted region has no byte that does not belong to one of its parts, and a region that was
written is always accepted.
-/
import Mathlib
import SszRecord.Proofs.Wire.Region

namespace SszRecord.Wire

/-! ### Containers -/

section Containers

variable {data : Bytes} {fields : List (Field Kind)} {ps : List Part}

theorem readSlots_of_fixed {f : Field Kind} {n : Nat} (hsize : f.kind.fixedSize? = some n)
    {isz start : Nat} {isFirst : Bool} {sl : List Slot} :
    readSlots data isz start isFirst (f :: fields) = .ok sl ↔
      ∃ rest, readSlots data isz (start + n) isFirst fields = .ok rest ∧
        .inline ⟨start, start + n⟩ :: rest = sl := by
  rw [readSlots, hsize]
  simp only [bind_eq_ok, pure_eq_ok, Except.ok.injEq]

theorem readSlots_of_variable {f : Field Kind} (hsize : f.kind.fixedSize? = none)
    {isz start : Nat} {isFirst : Bool} {sl : List Slot} :
    readSlots data isz start isFirst (f :: fields) = .ok sl ↔
      ∃ o, readOffset data start = .ok o ∧ (isFirst = true → o = isz) ∧
        ∃ rest, readSlots data isz (start + offsetSize) false fields = .ok rest ∧
          .offset o :: rest = sl := by
  rw [readSlots, hsize]
  simp only [throw_eq_error, error_bind, refuse_eq_ok, bind_eq_ok, pure_eq_ok, Except.ok.injEq,
    not_and, ne_eq, not_not]

theorem fieldSpans_inline {span : Span} {sl : List Slot} {pspans ss : List Span} :
    fieldSpans (.inline span :: sl) pspans = .ok ss ↔
      ∃ rest, fieldSpans sl pspans = .ok rest ∧ span :: rest = ss := by
  simp only [fieldSpans, bind_eq_ok, pure_eq_ok, Except.ok.injEq]

/-- A slot with an offset takes the next payload. -/
theorem fieldSpans_offset {o : Nat} {sl : List Slot} {pspans ss : List Span} :
    fieldSpans (.offset o :: sl) pspans = .ok ss ↔
      ∃ span pspans' rest, pspans = span :: pspans' ∧ fieldSpans sl pspans' = .ok rest ∧
        span :: rest = ss := by
  cases pspans with
  | nil => simp [fieldSpans]
  | cons span pspans => simp [fieldSpans, bind_eq_ok]

/-- The first pass over the inline part of a region finds the parts of the region. -/
theorem readSlots_slots {isz start offset : Nat} {isFirst : Bool}
    (shape : fields.map (fun f => f.kind.fixedSize?) = ps.map Part.size?)
    (hmax : ∀ o ∈ starts offset (payloads ps), o ≤ maxOffset)
    (hfirst : isFirst = true → offset = isz) (hslots : slots offset ps <+: data.drop start) :
    ∃ sl, readSlots data isz start isFirst fields = .ok sl ∧
      sl.filterMap Slot.offset? = starts offset (payloads ps) ∧
      ∀ pspans : List Span, (pspans.map fun s => s.slice data) = payloads ps →
        ∃ ss, fieldSpans sl pspans = .ok ss ∧
          (ss.map fun s => s.slice data) = ps.map Part.bytes := by
  -- `start` moves on with every slot, and `offset` with every payload
  induction fields generalizing ps start offset isFirst with
  | nil =>
    rw [List.map_nil, eq_comm, List.map_eq_nil_iff] at shape
    subst shape
    exact ⟨[], rfl, rfl, fun _ _ => ⟨[], rfl, rfl⟩⟩
  | cons f fields ih =>
    cases ps with
    | nil => cases shape
    | cons p ps =>
      rw [List.map_cons, List.map_cons, List.cons.injEq] at shape
      obtain ⟨hp, shape⟩ := shape
      rw [Part.size?] at hp
      rw [slots] at hslots
      rw [payloads] at hmax ⊢
      cases hinline : p.isInline with
      | true =>
        rw [hinline, if_pos rfl] at hp hmax hslots
        rw [append_prefix_iff, List.drop_drop] at hslots
        obtain ⟨sl, hsl, hoffsets, hspans⟩ := ih shape hmax hfirst hslots.2
        refine ⟨_, (readSlots_of_fixed hp).2 ⟨sl, hsl, rfl⟩, hoffsets, ?_⟩
        intro pspans hpspans
        obtain ⟨ss, hss, hbytes⟩ := hspans pspans hpspans
        refine ⟨_, fieldSpans_inline.2 ⟨ss, hss, rfl⟩, ?_⟩
        rw [List.map_cons, List.map_cons, hbytes, Span.slice, Nat.add_sub_cancel_left,
          ← List.prefix_iff_eq_take.1 hslots.1]
      | false =>
        rw [hinline, if_neg Bool.false_ne_true] at hp hmax hslots
        rw [append_prefix_iff, List.drop_drop, Bytes.length_ofNat] at hslots
        obtain ⟨hfits, hmax⟩ := List.forall_mem_cons.1 hmax
        obtain ⟨sl, hsl, hoffsets, hspans⟩ :=
          ih shape hmax (fun hfirst => absurd hfirst Bool.false_ne_true) hslots.2
        have hread := readOffset_eq_ok.2 ⟨hfits, hslots.1⟩
        refine ⟨_, (readSlots_of_variable hp).2 ⟨offset, hread, hfirst, sl, hsl, rfl⟩, ?_, ?_⟩
        · rw [if_neg Bool.false_ne_true, starts, ← hoffsets]
          rfl
        · intro pspans hpspans
          rw [if_neg Bool.false_ne_true, List.map_eq_cons_iff] at hpspans
          obtain ⟨span, pspans, rfl, hspan, hpspans⟩ := hpspans
          obtain ⟨ss, hss, hbytes⟩ := hspans pspans hpspans
          refine ⟨_, fieldSpans_offset.2 ⟨span, pspans, ss, rfl, hss, rfl⟩, ?_⟩
          rw [List.map_cons, List.map_cons, hbytes, hspan]

/-- What the first pass collects: offsets that slots can hold, the first one at the end of the
inline part, and none at all only if all fields stand in place. -/
theorem offsets_of_readSlots {isz start : Nat} {isFirst : Bool} {sl : List Slot}
    (h : readSlots data isz start isFirst fields = .ok sl) :
    (∀ o ∈ sl.filterMap Slot.offset?, o ≤ maxOffset) ∧
      (isFirst = true → (sl.filterMap Slot.offset?).headD isz = isz) ∧
      (sl.filterMap Slot.offset? = [] → Kind.allFixedSize fields = true) := by
  induction fields generalizing start isFirst sl with
  | nil =>
    cases h
    exact ⟨List.forall_mem_nil _, fun _ => rfl, fun _ => rfl⟩
  | cons f fields ih =>
    rw [Kind.allFixedSize, Kind.isFixedSize_eq]
    cases hsize : f.kind.fixedSize? with
    | some n =>
      obtain ⟨rest, hrest, rfl⟩ := (readSlots_of_fixed hsize).1 h
      obtain ⟨hmax, hfirst, hnone⟩ := ih hrest
      exact ⟨hmax, hfirst, fun hnil => hnone hnil⟩
    | none =>
      obtain ⟨o, ho, hfirst, rest, hrest, rfl⟩ := (readSlots_of_variable hsize).1 h
      obtain ⟨hmax, -, -⟩ := ih hrest
      refine ⟨List.forall_mem_cons.2 ⟨(readOffset_eq_ok.1 ho).1, hmax⟩, hfirst, ?_⟩
      intro hnil
      exact absurd hnil (List.cons_ne_nil _ _)

/-- The parts that the passes over a region have found make up its inline part. -/
theorem slots_of_readSlots {isz start offset : Nat} {isFirst : Bool} {sl : List Slot}
    {pspans ss : List Span} (h : readSlots data isz start isFirst fields = .ok sl)
    (hlen : start + Kind.fixedPartSize fields ≤ data.length)
    (hspans : fieldSpans sl pspans = .ok ss)
    (hstarts : starts offset (pspans.map fun s => s.slice data) = sl.filterMap Slot.offset?) :
    ∃ ps : List Part, fields.map (fun f => f.kind.fixedSize?) = ps.map Part.size? ∧
      ps.map Part.bytes = (ss.map fun s => s.slice data) ∧
      payloads ps = (pspans.map fun s => s.slice data) ∧ slots offset ps <+: data.drop start := by
  induction fields generalizing start offset isFirst sl pspans ss with
  | nil =>
    cases h
    cases hspans
    -- no slot is left, so no payload is
    have hnone := congrArg List.length hstarts
    rw [length_starts] at hnone
    exact ⟨[], rfl, rfl, (List.eq_nil_of_length_eq_zero hnone).symm, List.nil_prefix⟩
  | cons f fields ih =>
    rw [Kind.fixedPartSize] at hlen
    cases hsize : f.kind.fixedSize? with
    | some n =>
      rw [hsize, Option.getD_some] at hlen
      obtain ⟨rest, hrest, rfl⟩ := (readSlots_of_fixed hsize).1 h
      obtain ⟨ss, hss, rfl⟩ := fieldSpans_inline.1 hspans
      obtain ⟨ps, shape, hbytes, hpayloads, hslots⟩ := ih hrest (by omega) hss hstarts
      have hslice : (⟨start, start + n⟩ : Span).slice data = (data.drop start).take n := by
        rw [Span.slice, Nat.add_sub_cancel_left]
      have hn : ((data.drop start).take n).length = n := by
        rw [List.length_take, List.length_drop]
        omega
      refine ⟨⟨true, (data.drop start).take n⟩ :: ps, ?_, ?_, hpayloads, ?_⟩
      · rw [List.map_cons, List.map_cons, shape, hsize, Part.size?, if_pos rfl, hn]
      · rw [List.map_cons, List.map_cons, hbytes, hslice]
      · rw [slots, if_pos rfl, append_prefix_iff, hn, List.drop_drop]
        exact ⟨List.take_prefix _ _, hslots⟩
    | none =>
      rw [hsize, Option.getD_none] at hlen
      obtain ⟨o, ho, -, rest, hrest, rfl⟩ := (readSlots_of_variable hsize).1 h
      obtain ⟨span, pspans, ss, rfl, hss, rfl⟩ := fieldSpans_offset.1 hspans
      -- the slot holds the start of its payload
      rw [List.map_cons, starts, List.filterMap_cons_some (by rfl), List.cons.injEq] at hstarts
      obtain ⟨rfl, hstarts⟩ := hstarts
      obtain ⟨ps, shape, hbytes, hpayloads, hslots⟩ := ih hrest (by omega) hss hstarts
      refine ⟨⟨false, span.slice data⟩ :: ps, ?_, ?_, ?_, ?_⟩
      · rw [List.map_cons, List.map_cons, shape, hsize]
        rfl
      · rw [List.map_cons, List.map_cons, hbytes]
      · rw [payloads, if_neg Bool.false_ne_true, hpayloads, List.map_cons]
      · rw [slots, if_neg Bool.false_ne_true, append_prefix_iff, Bytes.length_ofNat,
          List.drop_drop]
        exact ⟨(readOffset_eq_ok.1 ho).2, hslots⟩

/-- What passes is the region of the parts that were found. -/
theorem parts_of_containerSpans {ss : List Span} (h : containerSpans fields data = .ok ss) :
    ∃ ps : List Part, fields.map (fun f => f.kind.fixedSize?) = ps.map Part.size? ∧
      Placeable ps ∧ region ps = data ∧ ps.map Part.bytes = ss.map fun s => s.slice data := by
  rw [containerSpans] at h
  simp only [throw_eq_error, error_bind, refuse_eq_ok, bind_eq_ok] at h
  obtain ⟨hshort, htrailing, sl, hsl, pspans, hpspans, hss⟩ := h
  obtain ⟨hmax, hfirst, hnone⟩ := offsets_of_readSlots hsl
  obtain ⟨hstarts, hdrop⟩ := starts_of_spansOfOffsets hpspans
  -- the payloads begin right behind the inline part, also if there are none
  have hhead : (sl.filterMap Slot.offset?).headD data.length = Kind.fixedPartSize fields := by
    cases hoffsets : sl.filterMap Slot.offset? with
    | nil =>
      by_contra hne
      exact htrailing ⟨hnone hoffsets, hne⟩
    | cons o offsets =>
      have := hfirst rfl
      rwa [hoffsets] at this
  rw [hhead] at hstarts hdrop
  obtain ⟨ps, shape, hbytes, hpayloads, hslots⟩ := slots_of_readSlots hsl (by omega) hss hstarts
  rw [← hpayloads] at hstarts hdrop
  rw [fixedPartSize_eq_inlineSize shape] at hstarts hdrop hslots
  refine ⟨ps, shape, ?_, ?_, hbytes⟩
  · rw [Placeable, hstarts]
    exact hmax
  · -- the slots are the bytes before the payloads, and the payloads are all the others
    rw [List.drop_zero, List.prefix_iff_eq_take, length_slots] at hslots
    rw [region, hslots, ← hdrop, List.take_append_drop]

/-- The region of parts that fit the fields passes. -/
theorem containerSpans_region (shape : fields.map (fun f => f.kind.fixedSize?) = ps.map Part.size?)
    (hplace : Placeable ps) :
    ∃ ss, containerSpans fields (region ps) = .ok ss ∧
      (ss.map fun s => s.slice (region ps)) = ps.map Part.bytes := by
  have hinline := fixedPartSize_eq_inlineSize shape
  have hlen := length_region ps
  have hslots : slots (inlineSize ps) ps <+: (region ps).drop 0 := List.prefix_append _ _
  obtain ⟨sl, hsl, hoffsets, hspans⟩ :=
    readSlots_slots shape hplace (fun _ => rfl : true = true → _) hslots
  have hdrop : (region ps).drop (inlineSize ps) = (payloads ps).flatten :=
    List.drop_left' (length_slots _ ps)
  obtain ⟨pspans, hpspans, hpayloads⟩ := spansOfOffsets_starts hdrop (by omega)
  obtain ⟨ss, hss, hbytes⟩ := hspans pspans hpayloads
  refine ⟨ss, ?_, hbytes⟩
  rw [containerSpans]
  simp only [throw_eq_error, error_bind, refuse_eq_ok, bind_eq_ok]
  rw [hinline, hlen]
  refine ⟨by omega, fun h => h.2 ?_, sl, hsl, pspans, by rw [hoffsets, ← hlen, hpspans], hss⟩
  -- without payloads the region ends with its inline part
  rw [(region_of_inline ((allFixedSize_iff_isInline shape).1 h.1)).2]
  rfl

/-- **The spans of a container are the parts of its region.** -/
theorem containerSpans_eq_ok {bs : List Bytes} :
    (∃ ss, containerSpans fields data = .ok ss ∧ (ss.map fun s => s.slice data) = bs) ↔
      ∃ ps : List Part, fields.map (fun f => f.kind.fixedSize?) = ps.map Part.size? ∧
        Placeable ps ∧ region ps = data ∧ ps.map Part.bytes = bs := by
  constructor
  · rintro ⟨ss, h, rfl⟩
    exact parts_of_containerSpans h
  · rintro ⟨ps, shape, hplace, rfl, rfl⟩
    exact containerSpans_region shape hplace

end Containers

/-! ### Sequences -/

section Sequences

variable {data : Bytes} {bs : List Bytes}

theorem exactLength_eq_ok {n : Nat} : exactLength data n = .ok () ↔ data.length = n := by
  rw [exactLength, refuse_eq_ok, refuse_eq_ok]
  constructor
  · rintro ⟨hle, hge, -⟩
    omega
  · intro h
    exact ⟨by omega, by omega, rfl⟩

/-- The numbers of items that a count admits. -/
def Count.Admits : Count → Nat → Prop
  | .exactly n, len => len = n
  | .atMost max, len => len ≤ max

theorem Count.exactly_ne {n : Nat} (pos : 0 < n) : Count.exactly n ≠ .exactly 0 :=
  fun h => absurd (Count.exactly.inj h) (Nat.pos_iff_ne_zero.1 pos)

theorem Count.atMost_ne {max : Nat} : Count.atMost max ≠ .exactly 0 := nofun

theorem packedItems_eq_ok {size : Nat} (hsize : 0 < size) {count : Count} :
    packedItems size count data = .ok bs ↔
      count.Admits bs.length ∧ (∀ b ∈ bs, b.length = size) ∧ bs.flatten = data := by
  cases count with
  | exactly n =>
    rw [packedItems.eq_def, bind_eq_ok]
    constructor
    · rintro ⟨⟨⟩, hlen, h⟩
      cases h
      obtain ⟨hflat, hcount, heach⟩ := Bytes.flatten_pieces (exactLength_eq_ok.1 hlen)
      exact ⟨hcount, heach, hflat⟩
    · rintro ⟨hcount, heach, rfl⟩
      refine ⟨(), exactLength_eq_ok.2 ?_, ?_⟩
      · rw [Bytes.length_flatten heach, hcount]
      · rw [← hcount, Bytes.pieces_flatten heach]
        rfl
  | atMost max =>
    rw [packedItems.eq_def]
    simp only [throw_eq_error, error_bind, refuse_eq_ok]
    constructor
    · rintro ⟨haligned, hmax, h⟩
      cases h
      rw [ne_eq, not_not] at haligned
      obtain ⟨hflat, hcount, heach⟩ :=
        Bytes.flatten_pieces (Nat.mul_div_cancel' (Nat.dvd_of_mod_eq_zero haligned)).symm
      exact ⟨by rw [hcount]; exact Nat.le_of_not_lt hmax, heach, hflat⟩
    · rintro ⟨hcount, heach, rfl⟩
      have hlen := Bytes.length_flatten heach
      rw [hlen, Nat.mul_mod_right, Nat.mul_div_cancel_left _ hsize, Bytes.pieces_flatten heach]
      exact ⟨fun h => h rfl, Nat.not_lt.2 hcount, rfl⟩

/-- Payloads behind a table of their offsets. -/
def tabled (bs : List Bytes) : List Part := bs.map (Part.mk false)

theorem tabled_isInline : ∀ p ∈ tabled bs, p.isInline = false := by
  intro p hp
  obtain ⟨b, -, rfl⟩ := List.mem_map.1 hp
  rfl

theorem inlineSize_tabled : inlineSize (tabled bs) = bs.length * offsetSize := by
  rw [inlineSize_of_payloads tabled_isInline, tabled, List.length_map]

theorem bytes_tabled : (tabled bs).map Part.bytes = bs := by
  rw [tabled, List.map_map]
  exact List.map_id bs

theorem payloads_tabled : payloads (tabled bs) = bs := by
  rw [(slots_of_payloads tabled_isInline 0).2, bytes_tabled]

theorem slots_tabled (offset : Nat) :
    slots offset (tabled bs) = ((starts offset bs).map (Bytes.ofNat offsetSize)).flatten := by
  rw [(slots_of_payloads tabled_isInline offset).1, bytes_tabled]

theorem length_table (offsets : List Nat) :
    (offsets.map (Bytes.ofNat offsetSize)).flatten.length = offsets.length * offsetSize := by
  rw [Bytes.length_flatten (List.forall_mem_map.2 fun o _ => Bytes.length_ofNat offsetSize o),
    List.length_map, Nat.mul_comm]

/-- What a table of offsets cuts out is what it was written for. -/
theorem tabled_of_itemSpans {n : Nat} (hn : n ≠ 0) {ss : List Span}
    (h : itemSpans data n = .ok ss) :
    (ss.map fun s => s.slice data).length = n ∧
      Placeable (tabled (ss.map fun s => s.slice data)) ∧
        region (tabled (ss.map fun s => s.slice data)) = data := by
  rw [Placeable, region, inlineSize_tabled, payloads_tabled, slots_tabled]
  rw [itemSpans, if_neg hn] at h
  simp only [throw_eq_error, error_bind, refuse_eq_ok, bind_eq_ok] at h
  obtain ⟨hshort, offsets, htable, hfirst, hss⟩ := h
  rw [ne_eq, not_not] at hfirst
  obtain ⟨hcount, hmax, hstart⟩ := readTable_eq_ok.1 htable
  obtain ⟨hstarts, hdrop⟩ := starts_of_spansOfOffsets hss
  have hlen := congrArg List.length hstarts
  rw [length_starts, hcount] at hlen
  have hhead : offsets.headD data.length = n * offsetSize := by
    cases offsets with
    | nil => exact absurd hcount.symm hn
    | cons o offsets => exact hfirst
  rw [hhead] at hstarts hdrop
  rw [hlen, hstarts]
  refine ⟨rfl, hmax, ?_⟩
  rw [List.drop_zero, List.prefix_iff_eq_take, length_table, hcount] at hstart
  rw [hstart, ← hdrop, List.take_append_drop]

/-- A table is as long as it was said to be. -/
theorem length_itemSpans {n : Nat} {ss : List Span} (h : itemSpans data n = .ok ss) :
    ss.length = n := by
  by_cases hn : n = 0
  · subst hn
    cases h
    rfl
  · have hlen := (tabled_of_itemSpans hn h).1
    rwa [List.length_map] at hlen

theorem itemSpans_tabled (hne : bs.length ≠ 0) (hplace : Placeable (tabled bs)) :
    ∃ ss, itemSpans (region (tabled bs)) bs.length = .ok ss ∧
      (ss.map fun s => s.slice (region (tabled bs))) = bs := by
  rw [Placeable, inlineSize_tabled, payloads_tabled] at hplace
  rw [region, inlineSize_tabled, payloads_tabled, slots_tabled]
  generalize htab :
    ((starts (bs.length * offsetSize) bs).map (Bytes.ofNat offsetSize)).flatten = table
  have htablen : table.length = bs.length * offsetSize := by
    rw [← htab, length_table, length_starts]
  have hdrop : (table ++ bs.flatten).drop (bs.length * offsetSize) = bs.flatten :=
    List.drop_left' htablen
  have hlen : (table ++ bs.flatten).length = bs.length * offsetSize + bs.flatten.length := by
    rw [List.length_append, htablen]
  obtain ⟨ss, hss, hbytes⟩ := spansOfOffsets_starts hdrop (by omega)
  have htable : readTable (table ++ bs.flatten) 0 bs.length =
      .ok (starts (bs.length * offsetSize) bs) := by
    rw [readTable_eq_ok, htab]
    exact ⟨length_starts _ bs, hplace, List.prefix_append _ _⟩
  have hfirst : (starts (bs.length * offsetSize) bs).headD 0 = bs.length * offsetSize := by
    cases bs with
    | nil => exact absurd rfl hne
    | cons b bs => rfl
  refine ⟨ss, ?_, hbytes⟩
  rw [itemSpans, if_neg hne]
  simp only [throw_eq_error, error_bind, refuse_eq_ok, bind_eq_ok]
  exact ⟨by omega, _, htable, fun h => h hfirst, hss⟩

theorem itemSpans_eq_ok {n : Nat} (hn : n ≠ 0) :
    (∃ ss, itemSpans data n = .ok ss ∧ (ss.map fun s => s.slice data) = bs) ↔
      bs.length = n ∧ Placeable (tabled bs) ∧ region (tabled bs) = data := by
  constructor
  · rintro ⟨ss, h, rfl⟩
    exact tabled_of_itemSpans hn h
  · rintro ⟨rfl, hplace, rfl⟩
    exact itemSpans_tabled hn hplace

/-- The number of items that a list region announces: none if it is empty, and otherwise as many
as slots fit in front of the first payload. -/
theorem itemCount_eq_ok {max n : Nat} :
    itemCount data max = .ok n ↔ (data = [] ∧ n = 0) ∨
      (n ≠ 0 ∧ n ≤ max ∧ readOffset data 0 = .ok (n * offsetSize) ∧
        n * offsetSize ≤ data.length) := by
  cases data with
  | nil =>
    constructor
    · intro h
      cases h
      exact .inl ⟨rfl, rfl⟩
    · rintro (⟨-, rfl⟩ | ⟨-, -, h, -⟩)
      · rfl
      · cases h
  | cons x xs =>
    rw [itemCount, List.isEmpty_cons, if_neg Bool.false_ne_true]
    simp only [throw_eq_error, error_bind, refuse_eq_ok, bind_eq_ok, pure_eq_ok, Except.ok.injEq]
    rw [offsetSize]
    constructor
    · rintro ⟨first, hread, hle, hfirst, hmax, rfl⟩
      rw [not_or, ne_eq, not_not] at hfirst
      have hmul : first / 4 * 4 = first := Nat.div_mul_cancel (Nat.dvd_of_mod_eq_zero hfirst.2)
      rw [hmul]
      exact .inr ⟨by omega, by omega, hread, by omega⟩
    · rintro (⟨⟨⟩, -⟩ | ⟨hn, hmax, hread, hle⟩)
      exact ⟨n * 4, hread, by omega, by omega, by omega, by omega⟩

theorem tabledItems_eq_ok {count : Count} (hcount : count ≠ .exactly 0) :
    tabledItems count data = .ok bs ↔
      count.Admits bs.length ∧ Placeable (tabled bs) ∧ region (tabled bs) = data := by
  cases count with
  | exactly n =>
    have hn : n ≠ 0 := fun h => hcount (congrArg Count.exactly h)
    rw [tabledItems.eq_def, Count.Admits, ← itemSpans_eq_ok hn]
    simp only [error_bind, refuse_eq_ok, bind_eq_ok, pure_eq_ok, Except.ok.injEq]
    constructor
    · rintro ⟨-, _, rfl, ss, hss, hbs⟩
      exact ⟨ss, hss, hbs⟩
    · rintro ⟨ss, hss, hbs⟩
      refine ⟨?_, n, rfl, ss, hss, hbs⟩
      obtain ⟨hlen, -, hdata⟩ := (itemSpans_eq_ok hn).1 ⟨ss, hss, hbs⟩
      rw [← hdata, length_region, inlineSize_tabled, hlen]
      omega
  | atMost max =>
    rw [tabledItems.eq_def, Count.Admits]
    simp only [itemCount_eq_ok, bind_eq_ok, pure_eq_ok, Except.ok.injEq]
    constructor
    · rintro ⟨n, (⟨rfl, rfl⟩ | ⟨hn, hmax, -, -⟩), ss, hss, hbs⟩
      · cases hss
        subst hbs
        exact ⟨Nat.zero_le _, List.forall_mem_nil _, rfl⟩
      · obtain ⟨rfl, h⟩ := (itemSpans_eq_ok hn).1 ⟨ss, hss, hbs⟩
        exact ⟨hmax, h⟩
    · rintro ⟨hmax, hplace, rfl⟩
      by_cases hn : bs.length = 0
      · rw [List.length_eq_zero_iff] at hn
        subst hn
        exact ⟨0, .inl ⟨rfl, rfl⟩, [], rfl, rfl⟩
      · obtain ⟨ss, hss, hbs⟩ := (itemSpans_eq_ok hn).2 ⟨rfl, hplace, rfl⟩
        refine ⟨bs.length, .inr ⟨hn, hmax, ?_, ?_⟩, ss, hss, hbs⟩
        · -- the first slot holds the length of the table
          rw [readOffset_eq_ok, List.drop_zero, region, inlineSize_tabled, slots_tabled]
          rw [Placeable, inlineSize_tabled, payloads_tabled] at hplace
          obtain ⟨b, rest, rfl⟩ := List.exists_cons_of_length_pos (Nat.pos_of_ne_zero hn)
          rw [starts] at hplace ⊢
          refine ⟨hplace _ List.mem_cons_self, ?_⟩
          rw [List.map_cons, List.flatten_cons, List.append_assoc]
          exact List.prefix_append _ _
        · rw [length_region, inlineSize_tabled]
          omega

/-- **The regions of items are the parts of the region of their sequence.** -/
theorem itemRegions_eq_ok {item : Kind} (hitem : item.Sound) {count : Count}
    (hcount : count ≠ .exactly 0) :
    itemRegions item count data = .ok bs ↔
      count.Admits bs.length ∧
        (∀ b ∈ bs, (⟨item.isFixedSize, b⟩ : Part).size? = item.fixedSize?) ∧
        Placeable (bs.map (Part.mk item.isFixedSize)) ∧
        region (bs.map (Part.mk item.isFixedSize)) = data := by
  rw [itemRegions, Kind.isFixedSize_eq]
  cases hsize : item.fixedSize? with
  | some size =>
    have hinline : ∀ p ∈ bs.map (Part.mk true), p.isInline = true := by
      intro p hp
      obtain ⟨b, -, rfl⟩ := List.mem_map.1 hp
      rfl
    obtain ⟨hregion, hpayloads⟩ := region_of_inline hinline
    have hbytes : (bs.map (Part.mk true)).map Part.bytes = bs := by
      rw [List.map_map]
      exact List.map_id bs
    simp only [Option.isSome_some, Part.size?, if_true, Option.some_inj]
    rw [packedItems_eq_ok (hitem.fixedSize_pos hsize), hregion, Placeable, hpayloads, hbytes]
    exact and_congr_right fun _ => and_congr_right fun _ =>
      (and_iff_right (List.forall_mem_nil _)).symm
  | none =>
    simp only [Option.isSome_none, Part.size?, Bool.false_eq_true, if_false]
    rw [tabledItems_eq_ok hcount]
    exact and_congr_right fun _ => (and_iff_right fun _ _ => trivial).symm

end Sequences

end SszRecord.Wire

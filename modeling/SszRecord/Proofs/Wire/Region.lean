/-
Regions.

A region holds a list of parts.  A part stands in the inline part of the region, or it is a payload
behind the inline part and leaves a slot with its offset there.  `region` writes a region down, the
same way for containers and for sequences; the offsets of its payloads are `starts`, each of them
behind the payload before it.

What reading offsets and cutting along them gives is said here for single tables:

* `readOffset_eq_ok`, `readTable_eq_ok` : an offset is read exactly where its slot stands;
* `spansOfOffsets_starts` : cutting at the starts of consecutive payloads gives the payloads;
* `starts_of_spansOfOffsets` : and every accepted list of offsets consists of such starts.
-/
import Mathlib
import SszRecord.Proofs.Bytes
import SszRecord.Proofs.Schema.Sizes
import SszRecord.Wire.Decoding

namespace SszRecord

namespace Wire

/-- What a value is for the region around it: its encoding, and whether this stands in the inline
part. -/
structure Part where
  isInline : Bool
  bytes : Bytes

namespace Part

/-- The size that a part has by its kind: none for a payload. -/
def size? (p : Part) : Option Nat := if p.isInline then some p.bytes.length else none

/-- The number of bytes that a part takes in the inline part of its region. -/
def slotSize (p : Part) : Nat := p.size?.getD offsetSize

theorem isInline_eq (p : Part) : p.isInline = p.size?.isSome := by
  rw [size?]
  cases p.isInline <;> rfl

theorem slotSize_of_inline {p : Part} (h : p.isInline = true) : p.slotSize = p.bytes.length := by
  rw [slotSize, size?, if_pos h, Option.getD_some]

theorem slotSize_of_payload {p : Part} (h : p.isInline = false) : p.slotSize = offsetSize := by
  rw [slotSize, size?, if_neg (by rw [h]; exact Bool.false_ne_true), Option.getD_none]

end Part

/-- The length of the inline part of a region. -/
def inlineSize (ps : List Part) : Nat := (ps.map Part.slotSize).sum

/-- The payloads of a region. -/
def payloads : List Part → List Bytes
  | [] => []
  | p :: ps => if p.isInline then payloads ps else p.bytes :: payloads ps

/-- The offsets of payloads that follow one another, the first of them at `offset`. -/
def starts (offset : Nat) : List Bytes → List Nat
  | [] => []
  | b :: bs => offset :: starts (offset + b.length) bs

/-- The inline part of a region whose next payload goes to `offset`. -/
def slots (offset : Nat) : List Part → Bytes
  | [] => []
  | p :: ps =>
    if p.isInline then p.bytes ++ slots offset ps
    else Bytes.ofNat offsetSize offset ++ slots (offset + p.bytes.length) ps

/-- A region: values in place and slots, then the payloads that the slots refer to. -/
def region (ps : List Part) : Bytes := slots (inlineSize ps) ps ++ (payloads ps).flatten

/-- Every payload of the region starts where a slot can point to. -/
def Placeable (ps : List Part) : Prop := ∀ o ∈ starts (inlineSize ps) (payloads ps), o ≤ maxOffset

@[simp] theorem inlineSize_cons (p : Part) (ps : List Part) :
    inlineSize (p :: ps) = p.slotSize + inlineSize ps := rfl

theorem length_slots (offset : Nat) (ps : List Part) :
    (slots offset ps).length = inlineSize ps := by
  induction ps generalizing offset with
  | nil => rfl
  | cons p ps ih =>
    rw [slots, inlineSize_cons]
    cases h : p.isInline with
    | true => rw [if_pos rfl, List.length_append, ih, Part.slotSize_of_inline h]
    | false =>
      rw [if_neg Bool.false_ne_true, List.length_append, ih, Part.slotSize_of_payload h,
        Bytes.length_ofNat]

theorem length_region (ps : List Part) :
    (region ps).length = inlineSize ps + (payloads ps).flatten.length := by
  rw [region, List.length_append, length_slots]

/-- A region without payloads is its values joined together. -/
theorem region_of_inline {ps : List Part} (h : ∀ p ∈ ps, p.isInline = true) :
    region ps = (ps.map Part.bytes).flatten ∧ payloads ps = [] := by
  -- where the payloads would begin does not matter when there are none
  have hall (offset : Nat) :
      slots offset ps = (ps.map Part.bytes).flatten ∧ payloads ps = [] := by
    induction ps with
    | nil => exact ⟨rfl, rfl⟩
    | cons p ps ih =>
      obtain ⟨hp, hps⟩ := List.forall_mem_cons.1 h
      obtain ⟨hslots, hpayloads⟩ := ih hps
      rw [slots, payloads, if_pos hp, if_pos hp, hslots, hpayloads]
      exact ⟨rfl, rfl⟩
  obtain ⟨hslots, hpayloads⟩ := hall (inlineSize ps)
  rw [region, hslots, hpayloads, List.flatten_nil, List.append_nil]
  exact ⟨rfl, rfl⟩

/-- A region of payloads alone is a table of their offsets and the payloads. -/
theorem slots_of_payloads {ps : List Part} (h : ∀ p ∈ ps, p.isInline = false) (offset : Nat) :
    slots offset ps = ((starts offset (ps.map Part.bytes)).map (Bytes.ofNat offsetSize)).flatten ∧
      payloads ps = ps.map Part.bytes := by
  induction ps generalizing offset with
  | nil => exact ⟨rfl, rfl⟩
  | cons p ps ih =>
    obtain ⟨hp, hps⟩ := List.forall_mem_cons.1 h
    have hne : ¬p.isInline = true := by
      rw [hp]
      exact Bool.false_ne_true
    obtain ⟨hslots, hpayloads⟩ := ih hps (offset + p.bytes.length)
    rw [slots, payloads, if_neg hne, if_neg hne, hslots, hpayloads]
    exact ⟨rfl, rfl⟩

theorem inlineSize_of_payloads {ps : List Part} (h : ∀ p ∈ ps, p.isInline = false) :
    inlineSize ps = ps.length * offsetSize := by
  induction ps with
  | nil => rfl
  | cons p ps ih =>
    obtain ⟨hp, hps⟩ := List.forall_mem_cons.1 h
    rw [inlineSize_cons, ih hps, Part.slotSize_of_payload hp, List.length_cons, Nat.succ_mul,
      Nat.add_comm]

theorem length_starts (offset : Nat) (bs : List Bytes) :
    (starts offset bs).length = bs.length := by
  induction bs generalizing offset with
  | nil => rfl
  | cons b bs ih => rw [starts, List.length_cons, ih, List.length_cons]

section Shape

variable {fields : List (Field Kind)} {ps : List Part}

theorem fixedPartSize_eq_inlineSize
    (shape : fields.map (fun f => f.kind.fixedSize?) = ps.map Part.size?) :
    Kind.fixedPartSize fields = inlineSize ps := by
  have h := congrArg (fun l => (l.map fun n : Option Nat => n.getD offsetSize).sum) shape
  simp only [List.map_map] at h
  rw [Kind.fixedPartSize_eq_sum]
  exact h

theorem allFixedSize_iff_isInline
    (shape : fields.map (fun f => f.kind.fixedSize?) = ps.map Part.size?) :
    Kind.allFixedSize fields = true ↔ ∀ p ∈ ps, p.isInline = true := by
  have h := congrArg (fun l => ∀ n ∈ l, Option.isSome n = true) shape
  simp only [List.forall_mem_map, ← Part.isInline_eq, ← Kind.isFixedSize_eq] at h
  rw [Kind.allFixedSize_iff, h]

end Shape

/-! ### Reading offsets -/

/-- An offset is read exactly where its slot stands. -/
theorem readOffset_eq_ok {data : Bytes} {start o : Nat} :
    readOffset data start = .ok o ↔
      o ≤ maxOffset ∧ Bytes.ofNat offsetSize o <+: data.drop start := by
  rw [readOffset, refuse_eq_ok]
  constructor
  · rintro ⟨hlen, h⟩
    cases h
    -- the slot is complete, so that its bytes and its number determine each other
    have hslot : ((data.drop start).take offsetSize).length = offsetSize := by
      rw [List.length_take, List.length_drop, offsetSize] at *
      omega
    have hlt := Bytes.toNat_lt ((data.drop start).take offsetSize)
    have hof := Bytes.ofNat_toNat ((data.drop start).take offsetSize)
    rw [hslot] at hlt hof
    refine ⟨Nat.le_of_lt_succ hlt, ?_⟩
    rw [hof]
    exact List.take_prefix _ _
  · rintro ⟨hmax, hstart⟩
    have hlen := hstart.length_le
    rw [Bytes.length_ofNat, List.length_drop] at hlen
    have htake := List.prefix_iff_eq_take.1 hstart
    rw [Bytes.length_ofNat] at htake
    refine ⟨by rw [offsetSize] at *; omega, ?_⟩
    rw [← htake, Bytes.toNat_ofNat]
    exact congrArg _ (Nat.mod_eq_of_lt (Nat.lt_succ_of_le hmax))

/-- A string that begins with two others in turn begins with the first, and the second stands
behind it. -/
theorem append_prefix_iff {a b c : Bytes} : a ++ b <+: c ↔ a <+: c ∧ b <+: c.drop a.length := by
  constructor
  · rintro ⟨d, rfl⟩
    rw [List.append_assoc]
    exact ⟨List.prefix_append _ _, by rw [List.drop_left]; exact List.prefix_append _ _⟩
  · rintro ⟨⟨d, rfl⟩, h⟩
    rw [List.drop_left] at h
    exact (List.prefix_append_right_inj a).2 h

theorem readTable_eq_ok {data : Bytes} {start count : Nat} {offsets : List Nat} :
    readTable data start count = .ok offsets ↔
      offsets.length = count ∧ (∀ o ∈ offsets, o ≤ maxOffset) ∧
        (offsets.map (Bytes.ofNat offsetSize)).flatten <+: data.drop start := by
  induction count generalizing start offsets with
  | zero =>
    rw [readTable]
    constructor
    · intro h
      cases h
      exact ⟨rfl, List.forall_mem_nil _, List.nil_prefix⟩
    · rintro ⟨hlen, -, -⟩
      rw [List.eq_nil_of_length_eq_zero hlen]
  | succ count ih =>
    rw [readTable, bind_eq_ok]
    constructor
    · rintro ⟨o, ho, h⟩
      obtain ⟨rest, hrest, h⟩ := bind_eq_ok.1 h
      cases h
      obtain ⟨hmax, hslot⟩ := readOffset_eq_ok.1 ho
      obtain ⟨hlen, hmaxs, htable⟩ := ih.1 hrest
      refine ⟨congrArg Nat.succ hlen, List.forall_mem_cons.2 ⟨hmax, hmaxs⟩, ?_⟩
      rw [List.map_cons, List.flatten_cons, append_prefix_iff, Bytes.length_ofNat, List.drop_drop]
      exact ⟨hslot, htable⟩
    · rintro ⟨hlen, hmaxs, htable⟩
      cases offsets with
      | nil => cases hlen
      | cons o rest =>
        obtain ⟨hmax, hmaxs⟩ := List.forall_mem_cons.1 hmaxs
        rw [List.map_cons, List.flatten_cons, append_prefix_iff, Bytes.length_ofNat,
          List.drop_drop] at htable
        exact ⟨o, readOffset_eq_ok.2 ⟨hmax, htable.1⟩,
          bind_eq_ok.2 ⟨rest, ih.2 ⟨Nat.succ.inj hlen, hmaxs, htable.2⟩, rfl⟩⟩

/-! ### Cutting along offsets -/

/-- The payload at `offset`, and where the payloads behind it begin. -/
theorem drop_of_flatten_cons {data : Bytes} {offset : Nat} {b : Bytes} {bs : List Bytes}
    (h : data.drop offset = (b :: bs).flatten) (hoffset : offset ≤ data.length) :
    (data.drop offset).take b.length = b ∧ data.drop (offset + b.length) = bs.flatten ∧
      offset + b.length ≤ data.length := by
  rw [List.flatten_cons] at h
  have hlen := congrArg List.length h
  rw [List.length_drop, List.length_append] at hlen
  refine ⟨by rw [h]; exact List.take_left, ?_, by omega⟩
  rw [← List.drop_drop, h, List.drop_left]

theorem checkOffsets_starts {data : Bytes} {previous offset : Nat} {bs : List Bytes}
    (h : data.drop offset = bs.flatten) (hoffset : offset ≤ data.length)
    (hprevious : previous ≤ offset) :
    checkOffsets data.length previous (starts offset bs) = .ok () := by
  induction bs generalizing previous offset with
  | nil => rfl
  | cons b bs ih =>
    obtain ⟨-, hnext, hle⟩ := drop_of_flatten_cons h hoffset
    rw [starts, checkOffsets, if_neg (by omega)]
    exact ih hnext hle (Nat.le_add_right _ _)

theorem slice_spans_starts {data : Bytes} {offset : Nat} {bs : List Bytes}
    (h : data.drop offset = bs.flatten) (hoffset : offset ≤ data.length) :
    (spans data.length (starts offset bs)).map (fun s => s.slice data) = bs := by
  induction bs generalizing offset with
  | nil => rfl
  | cons b bs ih =>
    obtain ⟨htake, hnext, hle⟩ := drop_of_flatten_cons h hoffset
    have hrest := ih hnext hle
    cases bs with
    | nil =>
      -- the last payload runs to the end of the region
      rw [List.flatten_cons, List.flatten_nil, List.append_nil] at h
      rw [starts, starts, spans, List.map_singleton, Span.slice, h,
        List.take_of_length_le (by rw [← h, List.length_drop])]
    | cons b' bs =>
      rw [starts] at hrest
      rw [starts, starts, spans, List.map_cons, hrest, Span.slice, Nat.add_sub_cancel_left, htake]

/-- Consecutive payloads are cut out of a region at their starts. -/
theorem spansOfOffsets_starts {data : Bytes} {offset : Nat} {bs : List Bytes}
    (h : data.drop offset = bs.flatten) (hoffset : offset ≤ data.length) :
    ∃ ss, spansOfOffsets (starts offset bs) data.length = .ok ss ∧
      ss.map (fun s => s.slice data) = bs := by
  refine ⟨spans data.length (starts offset bs), ?_, slice_spans_starts h hoffset⟩
  rw [spansOfOffsets, checkOffsets_starts h hoffset (Nat.zero_le _)]
  rfl

/-- What accepted offsets cut out of a region begins at these offsets and leaves nothing between
the first one and the end. -/
theorem starts_of_checkOffsets {data : Bytes} {previous : Nat} {offsets : List Nat}
    (h : checkOffsets data.length previous offsets = .ok ()) :
    let bs := (spans data.length offsets).map fun s => s.slice data
    starts (offsets.headD data.length) bs = offsets ∧
      data.drop (offsets.headD data.length) = bs.flatten ∧
      offsets.headD data.length ≤ data.length := by
  induction offsets generalizing previous with
  | nil => exact ⟨rfl, List.drop_length, Nat.le_refl _⟩
  | cons o offsets ih =>
    rw [checkOffsets, refuse_eq_ok, not_or, not_lt, not_lt] at h
    obtain ⟨⟨hstop, -⟩, h⟩ := h
    obtain ⟨hstarts, hdrop, -⟩ := ih h
    rw [List.headD_cons]
    cases offsets with
    | nil =>
      have hslice : (⟨o, data.length⟩ : Span).slice data = data.drop o := by
        rw [Span.slice]
        exact List.take_of_length_le (by rw [List.length_drop])
      refine ⟨rfl, ?_, hstop⟩
      rw [spans, List.map_singleton, hslice, List.flatten_singleton]
    | cons next rest =>
      rw [checkOffsets, refuse_eq_ok, not_or, not_lt, not_lt] at h
      obtain ⟨⟨hnext, hle⟩, -⟩ := h
      rw [List.headD_cons] at hstarts hdrop
      -- this payload is what lies between its offset and the next one
      have hslice : (⟨o, next⟩ : Span).slice data = (data.drop o).take (next - o) := rfl
      have hlen : ((data.drop o).take (next - o)).length = next - o := by
        rw [List.length_take, List.length_drop]
        omega
      refine ⟨?_, ?_, hstop⟩
      · rw [spans, List.map_cons, starts, hslice, hlen, Nat.add_sub_cancel' hle, hstarts]
      · rw [spans, List.map_cons, List.flatten_cons, ← hdrop, hslice]
        rw [show next = o + (next - o) by omega, ← List.drop_drop, Nat.add_sub_cancel_left]
        exact (List.take_append_drop _ _).symm

theorem starts_of_spansOfOffsets {data : Bytes} {offsets : List Nat} {ss : List Span}
    (h : spansOfOffsets offsets data.length = .ok ss) :
    starts (offsets.headD data.length) (ss.map fun s => s.slice data) = offsets ∧
      data.drop (offsets.headD data.length) = (ss.map fun s => s.slice data).flatten := by
  rw [spansOfOffsets, bind_eq_ok] at h
  obtain ⟨⟨⟩, hcheck, h⟩ := h
  cases h
  obtain ⟨hstarts, hdrop, -⟩ := starts_of_checkOffsets hcheck
  exact ⟨hstarts, hdrop⟩

end Wire

end SszRecord

/-
Hostile bytes.

Whatever bytes are decoded, no span reaches out of the region that it is cut from, and every error
is borne out by the numbers it carries.  The spans and regions are those of `Kind.Cuts` and
`Kind.Arrives`, which are all that decoding ever cuts: on a machine that cuts nothing else it
answers the same.

* `CodecError.Proves` : what an error of decoding says;
* `Kind.decode_proves` : only such errors come up;
* `Schema.decode_safe` : this, and that nothing is cut where a region ends.
-/
import Mathlib
import SszRecord.Proofs.UInt256.Bytes
import SszRecord.Proofs.Wire.Machine

namespace SszRecord

/-- What the numbers of an error say.  No other errors come up in decoding; `m` is the limit on the
levels. -/
def CodecError.Proves (m : Nat) : CodecError → Prop
  | .shortBuffer needed actual => actual < needed
  | .trailingBytes expected actual => expected < actual
  | .badOffset offset previous length => length < offset ∨ offset < previous
  | .firstOffset expected actual => expected ≠ actual
  | .itemTooLarge length max => max < length
  | .listTooLong count max => max < count
  | .misalignedList length itemSize => ¬itemSize ∣ length
  | .nestingTooDeep max => max = m
  | .limitExceeded _ _ => False
  | .mismatch _ => False
  | .config _ => False
  | .text _ => False

namespace Wire

variable {m : Nat} {data : Bytes}

/-! ### Errors of single passes -/

theorem exactLength_proves (n : Nat) : FailsWith (CodecError.Proves m) (exactLength data n) := by
  rw [exactLength]
  refine failsWith_refuse id fun _ => failsWith_refuse id fun _ => ?_
  exact failsWith_ok ()

theorem readOffset_proves (start : Nat) :
    FailsWith (CodecError.Proves m) (readOffset data start) := by
  rw [readOffset]
  exact failsWith_refuse id fun _ => failsWith_ok _

theorem checkOffsets_proves (stop previous : Nat) (offsets : List Nat) :
    FailsWith (CodecError.Proves m) (checkOffsets stop previous offsets) := by
  induction offsets generalizing previous with
  | nil => exact failsWith_ok ()
  | cons o offsets ih =>
    rw [checkOffsets]
    exact failsWith_refuse id fun _ => ih o

theorem spansOfOffsets_proves (offsets : List Nat) (stop : Nat) :
    FailsWith (CodecError.Proves m) (spansOfOffsets offsets stop) := by
  rw [spansOfOffsets]
  exact failsWith_bind (checkOffsets_proves stop 0 offsets) fun _ _ => failsWith_ok _

theorem readTable_proves (start count : Nat) :
    FailsWith (CodecError.Proves m) (readTable data start count) := by
  induction count generalizing start with
  | zero => exact failsWith_ok _
  | succ count ih =>
    rw [readTable]
    refine failsWith_bind (readOffset_proves start) fun o _ => ?_
    exact failsWith_bind (ih _) fun _ _ => failsWith_ok _

/-- The first pass over a region that holds its inline part never runs out of bytes: a first offset
at the wrong place is all that can be wrong. -/
theorem readSlots_fails {fields : List (Field Kind)} {isz start : Nat} {isFirst : Bool}
    (hlen : start + Kind.fixedPartSize fields ≤ data.length) :
    FailsWith (fun e => ∃ o, o ≠ isz ∧ e = .firstOffset isz o)
      (readSlots data isz start isFirst fields) := by
  induction fields generalizing start isFirst with
  | nil => exact failsWith_ok _
  | cons f fields ih =>
    rw [Kind.fixedPartSize] at hlen
    rw [readSlots]
    cases hsize : f.kind.fixedSize? with
    | some n =>
      rw [hsize, Option.getD_some] at hlen
      exact failsWith_bind (ih (by omega)) fun _ _ => failsWith_ok _
    | none =>
      rw [hsize, Option.getD_none] at hlen
      refine failsWith_bind ?_ fun o _ => ?_
      · -- the slot lies in the inline part
        rw [readOffset, if_neg (by omega)]
        exact failsWith_ok _
      · refine failsWith_refuse (fun h => ⟨o, h.2, rfl⟩) fun _ => ?_
        exact failsWith_bind (ih (by omega)) fun _ _ => failsWith_ok _

/-- Slots with offsets find their payloads if there are as many. -/
theorem fieldSpans_of_length {sl : List Slot} {payloads : List Span}
    (h : (sl.filterMap Slot.offset?).length ≤ payloads.length) :
    ∃ ss, fieldSpans sl payloads = .ok ss := by
  induction sl generalizing payloads with
  | nil => exact ⟨[], rfl⟩
  | cons slot sl ih =>
    cases slot with
    | inline span =>
      obtain ⟨ss, hss⟩ := ih h
      exact ⟨_, fieldSpans_inline.2 ⟨ss, hss, rfl⟩⟩
    | offset o =>
      cases payloads with
      | nil => exact absurd h (Nat.not_succ_le_zero _)
      | cons span payloads =>
        obtain ⟨ss, hss⟩ := ih (Nat.le_of_succ_le_succ h)
        exact ⟨_, fieldSpans_offset.2 ⟨span, payloads, ss, rfl, hss, rfl⟩⟩

theorem length_spansOfOffsets {offsets : List Nat} {ss : List Span}
    (h : spansOfOffsets offsets data.length = .ok ss) : ss.length = offsets.length := by
  have := congrArg List.length (starts_of_spansOfOffsets h).1
  rwa [length_starts, List.length_map] at this

theorem containerSpans_proves (fields : List (Field Kind)) :
    FailsWith (CodecError.Proves m) (containerSpans fields data) := by
  rw [containerSpans]
  refine failsWith_refuse id fun hshort => ?_
  have hlen : 0 + Kind.fixedPartSize fields ≤ data.length := by omega
  refine failsWith_refuse (fun h => ?_) fun _ => ?_
  · show Kind.fixedPartSize fields < data.length
    have := h.2
    omega
  · refine failsWith_bind ?_ fun sl _ => failsWith_bind (spansOfOffsets_proves _ _) ?_
    · intro e he
      obtain ⟨o, ho, rfl⟩ := readSlots_fails hlen e he
      exact ho.symm
    · intro payloads hpayloads
      obtain ⟨ss, hss⟩ := fieldSpans_of_length (length_spansOfOffsets hpayloads).ge
      rw [hss]
      exact failsWith_ok ss

theorem itemCount_proves (bound : Nat) :
    FailsWith (CodecError.Proves m) (itemCount data bound) := by
  rw [itemCount]
  split
  · exact failsWith_ok 0
  · refine failsWith_bind (readOffset_proves 0) fun first _ => ?_
    refine failsWith_refuse .inl fun _ => failsWith_refuse (fun h => ?_) fun _ => ?_
    · -- what is wanted is a number of slots, at least one
      show max (first / offsetSize) 1 * offsetSize ≠ first
      simp only [offsetSize] at h ⊢
      omega
    · exact failsWith_refuse id fun _ => failsWith_ok _

theorem itemSpans_proves (count : Nat) :
    FailsWith (CodecError.Proves m) (itemSpans data count) := by
  rw [itemSpans]
  split
  · exact failsWith_ok _
  · refine failsWith_refuse id fun _ => failsWith_bind (readTable_proves _ _) fun offsets _ => ?_
    exact failsWith_refuse Ne.symm fun _ => spansOfOffsets_proves _ _

theorem itemRegions_proves (item : Kind) (count : Count) :
    FailsWith (CodecError.Proves m) (itemRegions item count data) := by
  rw [itemRegions]
  cases item.fixedSize? with
  | some size =>
    cases count with
    | exactly n =>
      exact failsWith_bind (exactLength_proves _) fun _ _ => failsWith_ok _
    | atMost max =>
      refine failsWith_refuse (fun h hdvd => h (Nat.mod_eq_zero_of_dvd hdvd)) fun _ => ?_
      exact failsWith_refuse id fun _ => failsWith_ok _
  | none =>
    have hspans (n : Nat) : FailsWith (CodecError.Proves m)
        (itemSpans data n >>= fun ss => .ok (ss.map fun s => s.slice data)) :=
      failsWith_bind (itemSpans_proves n) fun _ _ => failsWith_ok _
    show FailsWith _ (tabledItems count data)
    cases count with
    | exactly n =>
      rw [tabledItems.eq_def]
      simp only [error_bind, ok_bind]
      exact failsWith_refuse id fun _ => hspans n
    | atMost max =>
      rw [tabledItems.eq_def]
      exact failsWith_bind (itemCount_proves max) fun n _ => hspans n

theorem checkDepth_proves (depth : Nat) : FailsWith (CodecError.Proves m) (checkDepth m depth) := by
  rw [checkDepth]
  exact failsWith_refuse (fun _ => rfl) fun _ => failsWith_ok ()

end Wire

namespace Kind

variable {m depth : Nat}

/-! ### Errors of decoding -/

theorem decodeFields_proves {fields : List (Field Kind)} {regions : List Bytes}
    (ih : ∀ f ∈ fields, ∀ data, FailsWith (CodecError.Proves m) (f.kind.decode m depth data)) :
    FailsWith (CodecError.Proves m) (decodeFields m fields depth regions) := by
  induction fields generalizing regions with
  | nil => exact failsWith_ok _
  | cons f fields ihfields =>
    obtain ⟨hf, hfields⟩ := List.forall_mem_cons.1 ih
    cases regions with
    | nil => exact failsWith_ok _
    | cons region regions =>
      rw [decodeFields]
      refine failsWith_bind (hf region) fun v _ => ?_
      exact failsWith_bind (ihfields hfields) fun _ _ => failsWith_ok _

/-- **The errors of decoding bear out what they say.** -/
theorem decode_proves {k : Kind} (hk : k.Sound) (data : Bytes) :
    FailsWith (CodecError.Proves m) (k.decode m depth data) := by
  induction hk generalizing depth data with
  | bytes _ =>
    rw [decode]
    exact failsWith_bind (Wire.exactLength_proves _) fun _ _ => failsWith_ok _
  | @uint w width =>
    rw [decode]
    refine failsWith_bind (Wire.exactLength_proves _) fun _ hlen => ?_
    -- a region of the right length is never too long for an integer
    have hle : data.length ≤ 32 := by
      rw [Wire.exactLength_eq_ok.1 hlen]
      exact width_le width
    rw [UInt256.ofBytes?_eq hle]
    exact failsWith_ok _
  | byteList =>
    rw [decode]
    exact failsWith_refuse id fun _ => failsWith_ok _
  | vector _ _ ih =>
    rw [decode]
    refine failsWith_bind (Wire.checkDepth_proves _) fun _ _ => ?_
    refine failsWith_bind (Wire.itemRegions_proves _ _) fun regions _ => ?_
    exact failsWith_bind (failsWith_mapItems fun r _ => ih r) fun _ _ => failsWith_ok _
  | list _ ih =>
    rw [decode]
    refine failsWith_bind (Wire.checkDepth_proves _) fun _ _ => ?_
    refine failsWith_bind (Wire.itemRegions_proves _ _) fun regions _ => ?_
    exact failsWith_bind (failsWith_mapItems fun r _ => ih r) fun _ _ => failsWith_ok _
  | container _ _ ih =>
    rw [decode]
    refine failsWith_bind (Wire.checkDepth_proves _) fun _ _ => ?_
    refine failsWith_bind (Wire.containerSpans_proves _) fun spans _ => ?_
    exact failsWith_bind (decodeFields_proves fun f hf data => ih f hf data) fun _ _ =>
      failsWith_ok _

end Kind

namespace Schema

/-- **Hostile bytes are refused for what is wrong with them.**  Every span that is cut out of a
region lies in it.  These are all that decoding cuts: its answer is the same if other spans cannot
be cut, or are cut in another way, and nothing breaks off where spans are cut only out of regions
that have them.  The first pass over a container never runs out of bytes, and every error of
decoding is one that its own numbers prove. -/
theorem decode_safe {s : Schema} (valid : s.Valid) (m : Nat) (data : Bytes) :
    (∀ k region span inner, s.kind.Arrives data k region → k.Cuts region span inner →
      span.start ≤ span.stop ∧ span.stop ≤ region.length) ∧
    (∀ cut : Wire.Span → Bytes → Option Bytes,
      (∀ k region span inner, s.kind.Arrives data k region → k.Cuts region span inner →
        cut span region = span.slice? region) →
      (s.decodeOn { Machine.exact with cut } m data).run = some (s.decode m data)) ∧
    (s.decodeOn .exact m data).run = some (s.decode m data) ∧
    (∀ name fields region, s.kind.Arrives data (.container name fields) region →
      Kind.fixedPartSize fields ≤ region.length → ∀ needed actual,
        Wire.readSlots region (Kind.fixedPartSize fields) 0 true fields ≠
          .error (.shortBuffer needed actual)) ∧
    ∀ e, s.decode m data = .error e → e.Proves m := by
  have sound := valid_iff.1 valid
  refine ⟨fun k region span inner h cut => cut.within_region (h.sound sound), ?_,
    decodeOn_exact s m data, ?_, ?_⟩
  · intro cut cuts
    refine decodeOn_of_exact rfl rfl (fun _ => rfl) fun _ => ?_
    intro k region span inner arrives hcut
    rw [← Wire.slice?_eq (hcut.within_region (arrives.sound sound))]
    exact cuts k region span inner arrives hcut
  · intro name fields region _ hlen needed actual h
    obtain ⟨o, -, ho⟩ := Wire.readSlots_fails (by omega) _ h
    cases ho
  · have hvalid : s.validate = .ok () := valid
    have hfields := (Kind.sound_container.1 sound).2
    rw [decode, hvalid, ok_bind]
    refine failsWith_bind (Wire.containerSpans_proves _) fun spans _ => ?_
    exact Kind.decodeFields_proves fun f hf region => Kind.decode_proves (hfields f hf) region

/-- The lines of a log are cut out of the record, and the second one would end before it begins. -/
theorem decode_safe_offsets :
    let s : Schema := ⟨"Log", [⟨"lines", .list (.byteList 3) 4, .reject⟩,
      ⟨"size", .uint 2, .reject⟩]⟩
    let data : Bytes := [6, 0, 0, 0, 44, 1, 8, 0, 0, 0, 7, 0, 0, 0, 1, 2]
    s.Valid ∧ s.kind.Arrives data s.kind data ∧
      s.kind.Cuts data ⟨6, 16⟩ (.list (.byteList 3) 4) ∧ 6 ≤ 16 ∧ 16 ≤ data.length ∧
      s.kind.Arrives data (.list (.byteList 3) 4) ((⟨6, 16⟩ : Wire.Span).slice data) ∧
      (s.decodeOn .exact 1 data).run = some (.error (.badOffset 7 8 10)) ∧
      s.decode 1 data = .error (.badOffset 7 8 10) ∧
      (CodecError.badOffset 7 8 10).Proves 1 := by
  intro s data
  have valid : s.Valid := rfl
  have h : s.decode 1 data = .error (.badOffset 7 8 10) := by
    unfold s data
    rfl
  have hspans : Wire.containerSpans s.fields data = .ok [⟨6, 16⟩, ⟨4, 6⟩] := by
    unfold s data
    rfl
  have harrives : s.kind.Arrives data s.kind data := .start
  have hcut : s.kind.Cuts data ⟨6, 16⟩ (.list (.byteList 3) 4) := .field hspans List.mem_cons_self
  obtain ⟨hwithin, -, hexact, -, hproves⟩ := decode_safe valid 1 data
  obtain ⟨hle, hstop⟩ := hwithin _ _ _ _ harrives hcut
  rw [h] at hexact
  exact ⟨valid, harrives, hcut, hle, hstop, .enter harrives hcut, hexact, h, hproves _ h⟩

end Schema

end SszRecord

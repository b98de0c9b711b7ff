/-
Messages that are cut short.

A message that arrives in pieces is first seen without its end.  `Awaits` sets the answer for such a
beginning next to the one for the whole message: if the whole is accepted, then the beginning is
accepted as well or refused with an error that asks for more (`CodecError.Unfinished`).  This holds
of every pass over a region, as the offsets and lengths in the beginning stay what they are and only
the end of the region moves on:

* `awaits_bind`, `awaits_refuse` : passes that follow one another;
* `Kind.decode_awaits` : decoding;
* `Schema.refused_for_good` : so every other error stands, whatever bytes follow.

The converse fails.  An error that asks for more may come from a region whose end is fixed by the
offset of its neighbour, and no bytes at the end of the message help there
(`Schema.unfinished_for_good`).  Schemas of fixed size have no such regions, and for them the error
tells how many bytes are missing.
-/
import Mathlib
import SszRecord.Proofs.Limits
import SszRecord.Proofs.Wire.FixedSize

namespace SszRecord

/-- The errors that more bytes may take away: bytes are missing, or an offset points behind those
that there are. -/
def CodecError.Unfinished : CodecError → Prop
  | .shortBuffer _ _ => True
  | .badOffset offset _ length => length < offset
  | .misalignedList _ _ => True
  | _ => False

section Steps

variable {α β γ δ : Type}

/-- What is answered for the beginning of a message, `x`, next to what is answered for the whole. -/
def Awaits (R : α → β → Prop) (x : Except CodecError α) (x' : Except CodecError β) : Prop :=
  ∀ b, x' = .ok b → FailsWith CodecError.Unfinished x ∧ ∀ a, x = .ok a → R a b

variable {R : α → β → Prop} {S : γ → δ → Prop}

theorem awaits_ok {a : α} {b : β} (h : R a b) : Awaits R (.ok a) (.ok b) := by
  intro b' hb
  cases hb
  refine ⟨failsWith_ok a, fun a' ha => ?_⟩
  cases ha
  exact h

theorem awaits_error {e : CodecError} {x : Except CodecError α} :
    Awaits R x (.error e : Except CodecError β) := by
  intro b hb
  cases hb

theorem awaits_of_unfinished {e : CodecError} (h : e.Unfinished) {x' : Except CodecError β} :
    Awaits R (.error e : Except CodecError α) x' := by
  intro b _
  refine ⟨failsWith_error h, fun a ha => ?_⟩
  cases ha

theorem awaits_same {R : α → α → Prop} (h : ∀ a, R a a) (x : Except CodecError α) :
    Awaits R x x := by
  cases x with
  | ok a => exact awaits_ok (h a)
  | error e => exact awaits_error

theorem awaits_bind {x : Except CodecError α} {x' : Except CodecError β}
    {f : α → Except CodecError γ} {f' : β → Except CodecError δ} (hx : Awaits R x x')
    (hf : ∀ a b, x = .ok a → R a b → Awaits S (f a) (f' b)) : Awaits S (x >>= f) (x' >>= f') := by
  cases hx' : x' with
  | error e => exact awaits_error
  | ok b =>
    obtain ⟨hfails, hok⟩ := hx b hx'
    cases h : x with
    | error e => exact awaits_of_unfinished (hfails e h)
    | ok a => exact hf a b h (hok a h)

/-- A refusal of the beginning alone asks for more. -/
theorem awaits_refuse {p p' : Prop} [Decidable p] [Decidable p'] {e e' : CodecError}
    {x : Except CodecError α} {x' : Except CodecError β} (he : p → ¬p' → e.Unfinished)
    (hx : ¬p → ¬p' → Awaits R x x') :
    Awaits R (if p then .error e else x) (if p' then .error e' else x') := by
  by_cases hp' : p'
  · rw [if_pos hp']
    exact awaits_error
  · rw [if_neg hp']
    by_cases hp : p
    · rw [if_pos hp]
      exact awaits_of_unfinished (he hp hp')
    · rw [if_neg hp]
      exact hx hp hp'

/-- A list of which each item begins one of another list. -/
def Begins (as bs : List Bytes) : Prop := ∀ a ∈ as, ∃ b ∈ bs, a <+: b

theorem begins_of_forall₂ {as bs : List Bytes} (h : List.Forall₂ (fun a b => a <+: b) as bs) :
    Begins as bs := by
  induction h with
  | nil => exact List.forall_mem_nil _
  | cons hab _ ih =>
    refine List.forall_mem_cons.2 ⟨⟨_, List.mem_cons_self, hab⟩, fun a' ha' => ?_⟩
    obtain ⟨b', hb', hab'⟩ := ih a' ha'
    exact ⟨b', List.mem_cons_of_mem _ hb', hab'⟩

theorem awaits_mapItems {f : Bytes → Except CodecError α} {as bs : List Bytes}
    (hf : ∀ a b, a <+: b → Awaits (fun _ _ => True) (f a) (f b)) (h : Begins as bs) :
    Awaits (fun _ _ => True) (mapItems f as) (mapItems f bs) := by
  intro values hvalues
  refine ⟨failsWith_mapItems fun a ha => ?_, fun _ _ => trivial⟩
  obtain ⟨b, hb, hpre⟩ := h a ha
  obtain ⟨v, hv⟩ := exists_of_forall₂ (mapItems_eq_ok.1 hvalues) b hb
  exact (hf a b hpre v hv).1

end Steps

namespace Wire

variable {data more : Bytes}

/-! ### Reading at the beginning -/

theorem slice_append {span : Span} (h : span.stop ≤ data.length) :
    span.slice (data ++ more) = span.slice data := by
  rw [Span.slice, Span.slice, ← List.drop_take, ← List.drop_take, List.take_append_of_le_length h]

theorem readOffset_append {start : Nat} (h : start + offsetSize ≤ data.length) :
    readOffset (data ++ more) start = readOffset data start := by
  have hslot : (⟨start, start + offsetSize⟩ : Span).slice (data ++ more) =
      (⟨start, start + offsetSize⟩ : Span).slice data := slice_append h
  rw [Span.slice, Span.slice, Nat.add_sub_cancel_left] at hslot
  rw [readOffset, readOffset, hslot, if_neg (Nat.not_lt.2 h), if_neg]
  rw [List.length_append]
  omega

theorem readTable_append {start count : Nat} (h : start + count * offsetSize ≤ data.length) :
    readTable (data ++ more) start count = readTable data start count := by
  induction count generalizing start with
  | zero => rfl
  | succ count ih =>
    rw [Nat.succ_mul] at h
    rw [readTable, readTable, readOffset_append (by omega), ih (by omega)]

theorem readSlots_append {fields : List (Field Kind)} {isz start : Nat} {isFirst : Bool}
    (h : start + Kind.fixedPartSize fields ≤ data.length) :
    readSlots (data ++ more) isz start isFirst fields =
      readSlots data isz start isFirst fields := by
  induction fields generalizing start isFirst with
  | nil => rfl
  | cons f fields ih =>
    rw [Kind.fixedPartSize] at h
    rw [readSlots, readSlots]
    cases hsize : f.kind.fixedSize? with
    | some n =>
      rw [hsize, Option.getD_some] at h
      have hrest (first : Bool) : readSlots (data ++ more) isz (start + n) first fields =
          readSlots data isz (start + n) first fields := ih (by omega)
      simp only [hrest]
    | none =>
      rw [hsize, Option.getD_none] at h
      have hoffset : readOffset (data ++ more) start = readOffset data start :=
        readOffset_append (by omega)
      have hrest (first : Bool) : readSlots (data ++ more) isz (start + offsetSize) first fields =
          readSlots data isz (start + offsetSize) first fields := ih (by omega)
      simp only [hoffset, hrest]

/-! ### Cutting at the beginning -/

/-- Spans of the beginning of a message and of the whole, each of which begins its partner. -/
def SpansBegin (data more : Bytes) (ss ss' : List Span) : Prop :=
  List.Forall₂ (fun s s' => s.slice data <+: s'.slice (data ++ more)) ss ss'

theorem SpansBegin.slices {ss ss' : List Span} (h : SpansBegin data more ss ss') :
    List.Forall₂ (fun b b' => b <+: b') (ss.map fun s => s.slice data)
      (ss'.map fun s => s.slice (data ++ more)) :=
  List.forall₂_map_left_iff.2 (List.forall₂_map_right_iff.2 h)

/-- Offsets that are in order are refused only if they point behind the end. -/
theorem checkOffsets_awaits {stop stop' previous : Nat} (offsets : List Nat) :
    Awaits (fun _ _ => True) (checkOffsets stop previous offsets)
      (checkOffsets stop' previous offsets) := by
  induction offsets generalizing previous with
  | nil => exact awaits_ok trivial
  | cons o offsets ih =>
    rw [checkOffsets, checkOffsets]
    refine awaits_refuse (fun hbad hgood => ?_) fun _ _ => ih
    exact hbad.resolve_right fun hdecreasing => hgood (.inr hdecreasing)

/-- The last span runs to the end, and all others stay where they are. -/
theorem spansBegin_spans {previous : Nat} {offsets : List Nat}
    (h : checkOffsets data.length previous offsets = .ok ()) :
    SpansBegin data more (spans data.length offsets) (spans (data ++ more).length offsets) := by
  induction offsets generalizing previous with
  | nil => exact .nil
  | cons o offsets ih =>
    rw [checkOffsets, refuse_eq_ok, not_or, not_lt, not_lt] at h
    obtain ⟨⟨hstop, -⟩, h⟩ := h
    cases offsets with
    | nil =>
      -- the end of the whole message lies further on
      refine .cons ?_ .nil
      have hwhole : (data.drop o ++ more).length ≤ (data ++ more).length - o := by
        rw [List.length_append, List.length_append, List.length_drop]
        omega
      rw [Span.slice, Span.slice, List.drop_append_of_le_length hstop,
        List.take_of_length_le hwhole, List.take_of_length_le List.length_drop.le]
      exact List.prefix_append _ _
    | cons next rest =>
      have hrest := ih h
      rw [checkOffsets, refuse_eq_ok, not_or, not_lt, not_lt] at h
      refine .cons ?_ hrest
      rw [slice_append h.1.1]

theorem spansOfOffsets_awaits (offsets : List Nat) :
    Awaits (SpansBegin data more) (spansOfOffsets offsets data.length)
      (spansOfOffsets offsets (data ++ more).length) := by
  rw [spansOfOffsets, spansOfOffsets]
  refine awaits_bind (checkOffsets_awaits offsets) fun _ _ hcheck _ => ?_
  exact awaits_ok (spansBegin_spans hcheck)

theorem spansBegin_fieldSpans {sl : List Slot} {payloads payloads' ss ss' : List Span}
    (inline : ∀ span, .inline span ∈ sl → span.stop ≤ data.length)
    (hpayloads : SpansBegin data more payloads payloads') (h : fieldSpans sl payloads = .ok ss)
    (h' : fieldSpans sl payloads' = .ok ss') : SpansBegin data more ss ss' := by
  induction sl generalizing payloads payloads' ss ss' with
  | nil =>
    cases h
    cases h'
    exact .nil
  | cons slot sl ih =>
    have hrest (span : Span) (mem : .inline span ∈ sl) := inline span (List.mem_cons_of_mem _ mem)
    cases slot with
    | inline span =>
      obtain ⟨rest, hss, rfl⟩ := fieldSpans_inline.1 h
      obtain ⟨rest', hss', rfl⟩ := fieldSpans_inline.1 h'
      refine .cons ?_ (ih hrest hpayloads hss hss')
      rw [slice_append (inline span List.mem_cons_self)]
    | offset o =>
      obtain ⟨span, payloads, rest, rfl, hss, rfl⟩ := fieldSpans_offset.1 h
      obtain ⟨span', payloads', rest', rfl, hss', rfl⟩ := fieldSpans_offset.1 h'
      obtain ⟨hspan, hpayloads⟩ := List.forall₂_cons.1 hpayloads
      exact .cons hspan (ih hrest hpayloads hss hss')

/-! ### Passes over a region -/

theorem containerSpans_awaits (fields : List (Field Kind)) :
    Awaits (SpansBegin data more) (containerSpans fields data)
      (containerSpans fields (data ++ more)) := by
  have hle : (data ++ more).length = data.length + more.length := List.length_append
  rw [containerSpans, containerSpans]
  refine awaits_refuse (fun _ _ => trivial) fun hshort _ => ?_
  refine awaits_refuse (fun htrailing hwhole => ?_) fun _ _ => ?_
  · -- a region of fixed size that is whole is not longer before its end
    have heq : (data ++ more).length = Kind.fixedPartSize fields := by
      by_contra hne
      exact hwhole ⟨htrailing.1, hne⟩
    exact absurd (by omega) htrailing.2
  · have hlen : 0 + Kind.fixedPartSize fields ≤ data.length := by omega
    rw [readSlots_append hlen]
    refine awaits_bind (awaits_same (fun _ => rfl) _) ?_
    rintro sl _ hsl rfl
    refine awaits_bind (spansOfOffsets_awaits _) fun payloads payloads' hpayloads hbegin => ?_
    obtain ⟨ss, hss⟩ := fieldSpans_of_length (length_spansOfOffsets hpayloads).ge
    intro ss' hss'
    refine ⟨by rw [hss]; exact failsWith_ok ss, fun ss hss => ?_⟩
    refine spansBegin_fieldSpans (fun span mem => ?_) hbegin hss hss'
    have hstop := (within_readSlots hsl mem).2
    omega

theorem exactLength_awaits (n : Nat) :
    Awaits (fun _ _ => more = []) (exactLength data n) (exactLength (data ++ more) n) := by
  intro _ h
  rw [exactLength_eq_ok, List.length_append] at h
  refine ⟨?_, fun _ h' => ?_⟩
  · rw [exactLength]
    refine failsWith_refuse (fun _ => trivial) fun _ => failsWith_refuse (fun hlt => ?_) fun _ => ?_
    · omega
    · exact failsWith_ok ()
  · rw [exactLength_eq_ok] at h'
    exact List.eq_nil_of_length_eq_zero (by omega)

theorem begins_self (bs : List Bytes) : Begins bs bs :=
  fun b hb => ⟨b, hb, List.prefix_refl b⟩

/-- The pieces of the beginning are pieces of the whole. -/
theorem begins_pieces {size n n' : Nat} (hn : n ≤ n') (h : size * n ≤ data.length) :
    Begins (Bytes.pieces size n data) (Bytes.pieces size n' (data ++ more)) := by
  induction n generalizing n' data with
  | zero => exact List.forall_mem_nil _
  | succ n ih =>
    obtain ⟨n', rfl⟩ := Nat.exists_eq_add_of_le' (Nat.lt_of_lt_of_le (Nat.succ_pos n) hn)
    rw [Nat.mul_succ] at h
    rw [Bytes.pieces, Bytes.pieces, List.take_append_of_le_length (by omega),
      List.drop_append_of_le_length (by omega)]
    refine List.forall_mem_cons.2 ⟨⟨_, List.mem_cons_self, List.prefix_refl _⟩, fun a ha => ?_⟩
    have hlen : size * n ≤ (data.drop size).length := by
      rw [List.length_drop]
      omega
    obtain ⟨b, hb, hpre⟩ := ih (Nat.le_of_succ_le_succ hn) hlen a ha
    exact ⟨b, List.mem_cons_of_mem _ hb, hpre⟩

theorem packedItems_awaits (size : Nat) (count : Count) :
    Awaits Begins (packedItems size count data) (packedItems size count (data ++ more)) := by
  cases count with
  | exactly n =>
    rw [packedItems.eq_def, packedItems.eq_def]
    refine awaits_bind (exactLength_awaits _) fun _ _ _ hmore => ?_
    rw [hmore, List.append_nil]
    exact awaits_ok (begins_self _)
  | atMost max =>
    rw [packedItems.eq_def, packedItems.eq_def]
    have hle : data.length / size ≤ (data ++ more).length / size := by
      rw [List.length_append]
      exact Nat.div_le_div_right (Nat.le_add_right _ _)
    refine awaits_refuse (fun _ _ => trivial) fun _ _ => ?_
    refine awaits_refuse (fun hlong hwhole => ?_) fun _ _ => ?_
    · exact absurd (Nat.lt_of_lt_of_le hlong hle) hwhole
    · exact awaits_ok (begins_pieces hle (Nat.mul_div_le _ _))

/-- The number of items is told by the first bytes, if there are any. -/
theorem itemCount_awaits (max : Nat) :
    Awaits (fun n n' => n = n' ∨ n = 0) (itemCount data max) (itemCount (data ++ more) max) := by
  cases data with
  | nil =>
    -- a region of no bytes has no items, whatever stands in the whole one
    intro n' _
    refine ⟨failsWith_ok 0, fun n hn => ?_⟩
    cases hn
    exact .inr rfl
  | cons x xs =>
    rw [List.cons_append, itemCount, itemCount, List.isEmpty_cons, List.isEmpty_cons,
      if_neg Bool.false_ne_true, if_neg Bool.false_ne_true, ← List.cons_append]
    generalize x :: xs = data
    by_cases hlen : data.length < 0 + offsetSize
    · rw [readOffset, if_pos hlen]
      exact awaits_of_unfinished (e := .shortBuffer _ _) trivial
    · rw [readOffset_append (Nat.not_lt.1 hlen)]
      refine awaits_bind (awaits_same (fun _ => rfl) _) ?_
      rintro first _ - rfl
      refine awaits_refuse (fun hbad _ => hbad) fun _ _ => ?_
      refine awaits_refuse (fun h h' => absurd h h') fun _ _ => ?_
      refine awaits_refuse (fun h h' => absurd h h') fun _ _ => ?_
      exact awaits_ok (.inl rfl)

theorem itemSpans_awaits (n : Nat) :
    Awaits (SpansBegin data more) (itemSpans data n) (itemSpans (data ++ more) n) := by
  rw [itemSpans, itemSpans]
  by_cases hn : n = 0
  · rw [if_pos hn, if_pos hn]
    exact awaits_ok .nil
  · rw [if_neg hn, if_neg hn]
    refine awaits_refuse (fun _ _ => trivial) fun hshort _ => ?_
    rw [readTable_append (by omega)]
    refine awaits_bind (awaits_same (fun _ => rfl) _) ?_
    rintro offsets _ - rfl
    refine awaits_refuse (fun h h' => absurd h h') fun _ _ => ?_
    exact spansOfOffsets_awaits offsets

theorem tabledItems_awaits (count : Count) :
    Awaits Begins (tabledItems count data) (tabledItems count (data ++ more)) := by
  have hspans (n : Nat) : Awaits Begins
      (itemSpans data n >>= fun ss => .ok (ss.map fun s => s.slice data))
      (itemSpans (data ++ more) n >>= fun ss => .ok (ss.map fun s => s.slice (data ++ more))) :=
    awaits_bind (itemSpans_awaits n) fun _ _ _ h => awaits_ok (begins_of_forall₂ h.slices)
  rw [tabledItems.eq_def, tabledItems.eq_def]
  cases count with
  | exactly n =>
    simp only [error_bind, ok_bind]
    exact awaits_refuse (fun _ _ => trivial) fun _ _ => hspans n
  | atMost max =>
    refine awaits_bind (itemCount_awaits max) ?_
    rintro n n' - (rfl | rfl)
    · exact hspans n
    · intro regions' hregions'
      refine ⟨failsWith_ok [], fun regions hregions => ?_⟩
      cases hregions
      exact List.forall_mem_nil _

theorem itemRegions_awaits (item : Kind) (count : Count) :
    Awaits Begins (itemRegions item count data) (itemRegions item count (data ++ more)) := by
  rw [itemRegions, itemRegions]
  cases item.fixedSize? with
  | some size => exact packedItems_awaits size count
  | none => exact tabledItems_awaits count

end Wire

namespace Kind

variable {m depth : Nat}

/-! ### Decoding the beginning -/

theorem decodeFields_awaits {fields : List (Field Kind)} {bs bs' : List Bytes}
    (h : ∀ f ∈ fields, ∀ b b', b <+: b' →
      Awaits (fun _ _ => True) (f.kind.decode m depth b) (f.kind.decode m depth b'))
    (hbs : List.Forall₂ (fun b b' => b <+: b') bs bs') :
    Awaits (fun _ _ => True) (decodeFields m fields depth bs)
      (decodeFields m fields depth bs') := by
  induction fields generalizing bs bs' with
  | nil => exact awaits_ok trivial
  | cons f fields ih =>
    obtain ⟨hf, hfields⟩ := List.forall_mem_cons.1 h
    cases hbs with
    | nil => exact awaits_ok trivial
    | cons hb hbs =>
      rw [decodeFields, decodeFields]
      refine awaits_bind (hf _ _ hb) fun _ _ _ _ => ?_
      refine awaits_bind (ih hfields hbs) fun _ _ _ _ => ?_
      exact awaits_ok trivial

theorem decodeItems_awaits {item : Kind} {count : Wire.Count} {data more : Bytes}
    (h : ∀ b b', b <+: b' →
      Awaits (fun _ _ => True) (item.decode m depth b) (item.decode m depth b'))
    (wrap : List Value → Value) :
    Awaits (fun _ _ => True)
      (do
        let regions ← Wire.itemRegions item count data
        let items ← mapItems (fun r => item.decode m depth r) regions
        return wrap items)
      (do
        let regions ← Wire.itemRegions item count (data ++ more)
        let items ← mapItems (fun r => item.decode m depth r) regions
        return wrap items) := by
  refine awaits_bind (Wire.itemRegions_awaits item count) fun _ _ _ hbegins => ?_
  refine awaits_bind (awaits_mapItems h hbegins) fun _ _ _ _ => ?_
  exact awaits_ok trivial

/-- **A beginning is accepted or refused with an error that asks for more**, if the whole is
accepted. -/
theorem decode_awaits (k : Kind) (m depth : Nat) {data data' : Bytes} (h : data <+: data') :
    Awaits (fun _ _ => True) (k.decode m depth data) (k.decode m depth data') := by
  -- by induction on the kind: what a pass cuts out of the beginning begins what it cuts out of the
  -- whole
  obtain ⟨more, rfl⟩ := h
  induction k generalizing depth data more with
  | bytes n =>
    rw [decode, decode]
    exact awaits_bind (Wire.exactLength_awaits n) fun _ _ _ _ => awaits_ok trivial
  | uint w =>
    rw [decode, decode]
    refine awaits_bind (Wire.exactLength_awaits w) fun _ _ _ hmore => ?_
    rw [hmore, List.append_nil]
    exact awaits_same (fun _ => trivial) _
  | byteList max =>
    rw [decode, decode]
    refine awaits_refuse (fun hlong hwhole => ?_) fun _ _ => awaits_ok trivial
    rw [List.length_append] at hwhole
    omega
  | vector item n ih =>
    rw [decode, decode]
    refine awaits_bind (awaits_same (fun _ => rfl) _) fun _ _ _ _ => ?_
    refine decodeItems_awaits ?_ .vector
    rintro b _ ⟨rest, rfl⟩
    exact ih (depth + 1) rest
  | list item max ih =>
    rw [decode, decode]
    refine awaits_bind (awaits_same (fun _ => rfl) _) fun _ _ _ _ => ?_
    refine decodeItems_awaits ?_ .list
    rintro b _ ⟨rest, rfl⟩
    exact ih (depth + 1) rest
  | container name fields ih =>
    rw [decode, decode]
    refine awaits_bind (awaits_same (fun _ => rfl) _) fun _ _ _ _ => ?_
    refine awaits_bind (Wire.containerSpans_awaits fields) fun _ _ _ hbegin => ?_
    refine awaits_bind (decodeFields_awaits ?_ hbegin.slices) fun _ _ _ _ => awaits_ok trivial
    rintro f hf b _ ⟨rest, rfl⟩
    exact ih f hf (depth + 1) rest

end Kind

namespace Schema

variable {s : Schema} {m : Nat} {data : Bytes}

theorem decode_awaits (s : Schema) (m : Nat) (data more : Bytes) :
    Awaits (fun _ _ => True) (s.decode m data) (s.decode m (data ++ more)) := by
  rw [decode, decode]
  refine awaits_bind (awaits_same (fun _ => rfl) _) fun _ _ _ _ => ?_
  refine awaits_bind (Wire.containerSpans_awaits s.fields) fun _ _ _ hbegin => ?_
  exact Kind.decodeFields_awaits (fun f _ _ _ h => Kind.decode_awaits f.kind m 0 h) hbegin.slices

/-- **Which refusals stand.**  Whatever bytes follow, a message stays refused if the error does not
ask for more; and for a schema of fixed size a short buffer is completed by as many bytes as are
missing, whatever they are, also in words if the sizes are words. -/
theorem refused_for_good (valid : s.Valid) {e : CodecError} (refused : s.decode m data = .error e) :
    (¬e.Unfinished → ∀ more r, s.decode m (data ++ more) ≠ .ok r) ∧
      (s.isFixedSize = true → s.nesting ≤ m → ∀ needed actual, e = .shortBuffer needed actual →
        ∀ more : Bytes, actual + more.length = needed →
          ∃ r, s.decode m (data ++ more) = .ok r ∧
            (s.Sized → (s.decodeOn .wrapping m (data ++ more)).run = some (.ok r) ∧
              (s.decodeOn .checked m (data ++ more)).run = some (.ok r))) := by
  constructor
  · intro final more r hr
    exact final ((decode_awaits s m data more r hr).1 e refused)
  · rintro fixed levels needed actual rfl more hmore
    obtain ⟨rfl, rfl⟩ := size_of_shortBuffer valid fixed levels refused
    have hlen : (data ++ more).length = s.fixedPartSize := by rw [List.length_append, hmore]
    obtain ⟨r, hr⟩ := exists_decode_of_length valid fixed levels hlen
    refine ⟨r, hr, fun sized => ?_⟩
    rw [← hr]
    exact decodeOn_of_sized sized m _

/-- An offset that is less than the one before it, and a message of fixed size without its last
byte. -/
theorem refused_for_good_offsets :
    let log : Schema := ⟨"Log", [⟨"lines", .list (.byteList 3) 4, .reject⟩,
      ⟨"note", .byteList 4, .reject⟩]⟩
    let pair : Schema := ⟨"Pair", [⟨"size", .uint 2, .reject⟩,
      ⟨"marks", .vector (.bytes 1) 2, .reject⟩]⟩
    log.Valid ∧ log.decode defaultMaxDepth [8, 0, 0, 0, 7, 0, 0, 0] = .error (.badOffset 7 8 8) ∧
      ¬(CodecError.badOffset 7 8 8).Unfinished ∧
      (∀ more r, log.decode defaultMaxDepth ([8, 0, 0, 0, 7, 0, 0, 0] ++ more) ≠ .ok r) ∧
      pair.Valid ∧ pair.decode defaultMaxDepth [1, 2, 3] = .error (.shortBuffer 4 3) ∧
      pair.isFixedSize = true ∧ pair.nesting ≤ defaultMaxDepth ∧ pair.Sized ∧
      ∃ r, pair.decode defaultMaxDepth ([1, 2, 3] ++ [9]) = .ok r ∧
        (pair.decodeOn .wrapping defaultMaxDepth ([1, 2, 3] ++ [9])).run = some (.ok r) := by
  intro log pair
  have hlog : log.Valid := rfl
  have hpair : pair.Valid := rfl
  have hoffset :
      log.decode defaultMaxDepth [8, 0, 0, 0, 7, 0, 0, 0] = .error (.badOffset 7 8 8) := by
    unfold log
    rfl
  have hshort : pair.decode defaultMaxDepth [1, 2, 3] = .error (.shortBuffer 4 3) := by
    unfold pair
    rfl
  have hfinal : ¬(CodecError.badOffset 7 8 8).Unfinished := by
    rw [CodecError.Unfinished]
    omega
  have hlevels : pair.nesting ≤ defaultMaxDepth := by decide
  have hsized : pair.Sized := by decide
  obtain ⟨r, hr, hwords⟩ := (refused_for_good hpair hshort).2 rfl hlevels 4 3 rfl [9] rfl
  refine ⟨hlog, hoffset, hfinal, (refused_for_good hlog hoffset).1 hfinal, hpair, hshort, rfl,
    hlevels, hsized, r, hr, (hwords hsized).1⟩

/-- **Errors that ask for more may stand.**  Bytes are missing in a region that ends where the next
one begins, so that no bytes at the end of the message can help; and an offset that points behind
the beginning of a message is reported as a bad one. -/
theorem unfinished_for_good :
    let s : Schema := ⟨"Log", [⟨"lines", .list (.byteList 3) 4, .reject⟩,
      ⟨"note", .byteList 4, .reject⟩]⟩
    let short : Bytes := [8, 0, 0, 0, 10, 0, 0, 0, 1, 2]
    let cut : Bytes := [8, 0, 0, 0, 12, 0, 0, 0]
    s.Valid ∧ s.decode defaultMaxDepth short = .error (.shortBuffer 4 2) ∧
      (∀ more, s.decode defaultMaxDepth (short ++ more) = .error (.shortBuffer 4 2)) ∧
      s.decode defaultMaxDepth cut = .error (.badOffset 12 8 8) ∧
      s.decode defaultMaxDepth (cut ++ [4, 0, 0, 0]) = .ok [.list [.bytes []], .bytes []] := by
  intro s short cut
  refine ⟨rfl, by unfold s short; rfl, fun more => ?_, by unfold s cut; rfl, by unfold s cut; rfl⟩
  have hlen : (short ++ more).length = 10 + more.length := List.length_append
  have hslots : Wire.readSlots (short ++ more) 8 0 true s.fields =
      .ok [.offset 8, .offset 10] := by
    rw [Wire.readSlots_append]
    · unfold s short
      rfl
    · unfold s short
      decide
  have hspans : Wire.spansOfOffsets [8, 10] (short ++ more).length =
      .ok [⟨8, 10⟩, ⟨10, (short ++ more).length⟩] := by
    rw [Wire.spansOfOffsets, Wire.checkOffsets, if_neg (by omega), Wire.checkOffsets,
      if_neg (by omega)]
    rfl
  have hcut : Wire.containerSpans s.fields (short ++ more) =
      .ok [⟨8, 10⟩, ⟨10, (short ++ more).length⟩] := by
    have hsize : Kind.fixedPartSize s.fields = 8 := rfl
    have hfixed : Kind.allFixedSize s.fields = false := rfl
    have hoffsets : [Wire.Slot.offset 8, .offset 10].filterMap Wire.Slot.offset? = [8, 10] := rfl
    rw [Wire.containerSpans, hsize, hfixed, if_neg (by omega), if_neg (by simp), hslots]
    simp only [ok_bind, hoffsets, hspans]
    rfl
  -- the region of the lines ends where the note begins, and nothing that follows gets into it
  have hlines : (⟨8, 10⟩ : Wire.Span).slice (short ++ more) = [1, 2] :=
    Wire.slice_append (by unfold short; decide)
  rw [decode, hcut, ok_bind, List.map_cons, hlines]
  rfl

end Schema

end SszRecord

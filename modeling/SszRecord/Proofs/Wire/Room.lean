/-
Room for offsets.

A slot has four bytes, and a payload that starts behind all that they can point to cannot be
written.  `Kind.regions` lists the regions that a value is written in, at any depth, and
`Wire.Starts` says where the payloads of one of them start.  Encoding has no other way to fail:

* `Kind.encode_overruns` : an error of encoding names the start of a payload that is out of reach;
* `Kind.pointed_of_exact` : in what is encoded no payload is;
* `Kind.le_length_of_starts` : no payload starts behind the end of what is encoded;
* `Schema.encode_of_size` : when a record is encoded, and as how many bytes.
-/
import Mathlib
import SszRecord.Proofs.Wire.Definition

namespace SszRecord

namespace Wire

/-- A payload of the region starts at an offset. -/
def Starts (ps : List Part) (offset : Nat) : Prop :=
  ∃ i, ∃ hi : i < ps.length, ps[i].isInline = false ∧
    offset = inlineSize ps + payloadSize (ps.take i)

/-- The payloads that follow one another from `base` on are those of the parts. -/
theorem exists_of_mem_starts {ps : List Part} {base offset : Nat}
    (h : offset ∈ starts base (payloads ps)) :
    ∃ i, ∃ hi : i < ps.length, ps[i].isInline = false ∧
      offset = base + payloadSize (ps.take i) := by
  induction ps generalizing base with
  | nil => cases h
  | cons p ps ih =>
    rw [payloads] at h
    cases hp : p.isInline with
    | true =>
      rw [hp, if_pos rfl] at h
      obtain ⟨i, hi, hinline, rfl⟩ := ih h
      refine ⟨i + 1, Nat.succ_lt_succ hi, hinline, ?_⟩
      simp [payloadSize, hp]
    | false =>
      rw [hp, if_neg Bool.false_ne_true, starts] at h
      rcases List.mem_cons.1 h with rfl | h
      · exact ⟨0, Nat.succ_pos _, hp, rfl⟩
      · obtain ⟨i, hi, hinline, rfl⟩ := ih h
        refine ⟨i + 1, Nat.succ_lt_succ hi, hinline, ?_⟩
        simp [payloadSize, hp, Nat.add_assoc]

theorem payloadSize_take_le (ps : List Part) (i : Nat) :
    payloadSize (ps.take i) ≤ payloadSize ps := by
  rw [payloadSize, payloadSize, List.map_take]
  exact List.Sublist.sum_le_sum (List.take_sublist _ _) fun _ _ => Nat.zero_le _

theorem length_assembled (ps : List Part) :
    (assembled ps).length = inlineSize ps + payloadSize ps := by
  rw [← region_eq, length_region]
  congr 1
  induction ps with
  | nil => rfl
  | cons p ps ih =>
    rw [payloads]
    cases hp : p.isInline with
    | true => simp [payloadSize, hp, ih]
    | false => simp [payloadSize, hp, ih]

/-- No payload starts behind the end of its region. -/
theorem Starts.le_length {ps : List Part} {offset : Nat} (h : Starts ps offset) :
    offset ≤ (assembled ps).length := by
  obtain ⟨i, -, -, rfl⟩ := h
  rw [length_assembled]
  exact Nat.add_le_add_left (payloadSize_take_le ps i) _

/-- A region is as long as each of its parts. -/
theorem length_part_le {ps : List Part} {p : Part} (hp : p ∈ ps) :
    p.bytes.length ≤ (assembled ps).length := by
  rw [length_assembled]
  induction ps with
  | nil => cases hp
  | cons q ps ih =>
    have hsize : payloadSize (q :: ps) =
        (if q.isInline then 0 else q.bytes.length) + payloadSize ps := rfl
    rw [inlineSize_cons, hsize]
    rcases List.mem_cons.1 hp with rfl | hp
    · cases hq : p.isInline with
      | true =>
        have hslot := Part.slotSize_of_inline hq
        simp only [if_true]
        omega
      | false =>
        simp only [Bool.false_eq_true, if_false]
        omega
    · have hrest := ih hp
      omega

/-- An error that names the start of a payload that no slot can point to, in one of some regions. -/
def Overruns (regions : List (List Part)) (e : CodecError) : Prop :=
  ∃ ps ∈ regions, ∃ offset, Starts ps offset ∧ maxOffset < offset ∧
    e = .itemTooLarge offset maxOffset

theorem Overruns.mono {rs rs' : List (List Part)} (h : rs ⊆ rs') {e : CodecError}
    (he : Overruns rs e) : Overruns rs' e := by
  obtain ⟨ps, hps, hoffset⟩ := he
  exact ⟨ps, h hps, hoffset⟩

end Wire

namespace Kind

/-! ### The regions of a value -/

/-- The regions of a sequence: its own, if its items are of variable size, and those inside. -/
def sequenceRegions (item : Kind) (regionsOf : Value → List (List Wire.Part))
    (items : List Value) : List (List Wire.Part) :=
  let inner := items.flatMap regionsOf
  if item.isVariable then (items.map fun v => ⟨false, item.wire v⟩) :: inner else inner

mutual

/-- The regions that a value is written in, at any depth. -/
def regions : Kind → Value → List (List Wire.Part)
  | .vector item _, .vector items => sequenceRegions item (fun v => item.regions v) items
  | .list item _, .list items => sequenceRegions item (fun v => item.regions v) items
  | .container _ fields, .container values => wireParts fields values :: fieldRegions fields values
  | _, _ => []

/-- The regions inside the values of fields. -/
def fieldRegions : List (Field Kind) → List Value → List (List Wire.Part)
  | ⟨_, kind, _⟩ :: fields, value :: values => kind.regions value ++ fieldRegions fields values
  | _, _ => []

end

theorem mem_sequenceRegions {item : Kind} {regionsOf : Value → List (List Wire.Part)}
    {items : List Value} {ps : List Wire.Part} :
    ps ∈ sequenceRegions item regionsOf items ↔
      (item.isVariable = true ∧ ps = items.map fun v => ⟨false, item.wire v⟩) ∨
        ∃ v ∈ items, ps ∈ regionsOf v := by
  rw [sequenceRegions]
  cases item.isVariable with
  | true => simp
  | false => simp

theorem mem_fieldRegions {fields : List (Field Kind)} {values : List Value}
    {ps : List Wire.Part} :
    ps ∈ fieldRegions fields values ↔
      ∃ p ∈ fields.zip values, ps ∈ p.1.kind.regions p.2 := by
  induction fields generalizing values with
  | nil => simp [fieldRegions]
  | cons f fields ih =>
    cases values with
    | nil => simp [fieldRegions]
    | cons v values =>
      rw [fieldRegions, List.mem_append, ih, List.zip_cons_cons, List.exists_mem_cons_iff]

theorem mem_wireParts {fields : List (Field Kind)} {values : List Value} {p : Field Kind × Value}
    (hp : p ∈ fields.zip values) :
    ⟨!p.1.kind.isVariable, p.1.kind.wire p.2⟩ ∈ wireParts fields values := by
  induction fields generalizing values with
  | nil => cases hp
  | cons f fields ih =>
    cases values with
    | nil => cases hp
    | cons v values =>
      rw [wireParts]
      rcases List.mem_cons.1 hp with rfl | hp
      · exact List.mem_cons_self
      · exact List.mem_cons_of_mem _ (ih hp)

/-- In a value whose numbers all have room every payload is in reach. -/
theorem pointed_of_exact {k : Kind} {v : Value} (h : k.Exact v) :
    ∀ ps ∈ k.regions v, Wire.Pointed ps := by
  induction h with
  | bytes => exact List.forall_mem_nil _
  | uint room => exact List.forall_mem_nil _
  | byteList => exact List.forall_mem_nil _
  | vector pointed _ ih =>
    intro ps hps
    rw [regions] at hps
    rcases mem_sequenceRegions.1 hps with ⟨hvariable, rfl⟩ | ⟨v, hv, hps⟩
    · exact pointed hvariable
    · exact ih v hv ps hps
  | list pointed _ ih =>
    intro ps hps
    rw [regions] at hps
    rcases mem_sequenceRegions.1 hps with ⟨hvariable, rfl⟩ | ⟨v, hv, hps⟩
    · exact pointed hvariable
    · exact ih v hv ps hps
  | container pointed _ ih =>
    intro ps hps
    rw [regions] at hps
    rcases List.mem_cons.1 hps with rfl | hps
    · exact pointed
    · obtain ⟨p, hp, hps⟩ := mem_fieldRegions.1 hps
      exact ih p hp ps hps

/-- No payload starts behind the end of a sequence, if none does behind that of its item. -/
theorem le_length_of_items {item : Kind} {items : List Value} {ps : List Wire.Part} {offset : Nat}
    (ih : ∀ v, ps ∈ item.regions v → offset ≤ (item.wire v).length)
    (hps : ps ∈ sequenceRegions item (fun v => item.regions v) items)
    (h : Wire.Starts ps offset) :
    offset ≤ (if item.isVariable then Wire.assembled (items.map fun v => ⟨false, item.wire v⟩)
      else items.flatMap fun v => item.wire v).length := by
  rcases mem_sequenceRegions.1 hps with ⟨hvariable, rfl⟩ | ⟨v, hv, hps⟩
  · rw [if_pos hvariable]
    exact h.le_length
  · refine (ih v hps).trans ?_
    split
    · have hpart : (⟨false, item.wire v⟩ : Wire.Part) ∈
          items.map fun v => ⟨false, item.wire v⟩ := List.mem_map.2 ⟨v, hv, rfl⟩
      exact Wire.length_part_le hpart
    · exact (List.sublist_flatten_of_mem (List.mem_map.2 ⟨v, hv, rfl⟩)).length_le

/-- **No payload starts behind the end of what a value is written as.** -/
theorem le_length_of_starts {k : Kind} {v : Value} {ps : List Wire.Part} {offset : Nat}
    (hps : ps ∈ k.regions v) (h : Wire.Starts ps offset) : offset ≤ (k.wire v).length := by
  induction k generalizing v with
  | vector item n ih =>
    cases v with
    | vector items =>
      rw [regions] at hps
      rw [wire]
      exact le_length_of_items (fun v hv => ih hv) hps h
    | _ => cases hps
  | list item max ih =>
    cases v with
    | list items =>
      rw [regions] at hps
      rw [wire]
      exact le_length_of_items (fun v hv => ih hv) hps h
    | _ => cases hps
  | container name fields ih =>
    cases v with
    | container values =>
      rw [regions] at hps
      rw [wire]
      rcases List.mem_cons.1 hps with rfl | hps
      · exact h.le_length
      · -- the region lies in a field, and the field is a part of the container
        obtain ⟨p, hp, hps⟩ := mem_fieldRegions.1 hps
        have hfield := ih p.1 (List.of_mem_zip hp).1 hps
        exact hfield.trans (Wire.length_part_le (mem_wireParts hp))
    | _ => cases hps
  | _ => cases v <;> cases hps

/-! ### Errors of encoding -/

theorem offsetSlot_fails (offset : Nat) :
    FailsWith (fun e => Wire.maxOffset < offset ∧ e = .itemTooLarge offset Wire.maxOffset)
      (Wire.offsetSlot offset) := by
  rw [Wire.offsetSlot]
  split
  · exact failsWith_ok _
  · rename_i h
    exact failsWith_error ⟨Nat.lt_of_not_le h, rfl⟩

/-- The table of a sequence fails only for an item that starts out of reach. -/
theorem itemSlots_fails {size : Value → Except CodecError Nat} {g : Value → Bytes}
    {items : List Value} (h : ∀ v ∈ items, size v = .ok (g v).length) (base : Nat) :
    FailsWith (fun e => ∃ offset ∈ Wire.starts base (items.map g), Wire.maxOffset < offset ∧
      e = .itemTooLarge offset Wire.maxOffset) (itemSlots size base items) := by
  induction items generalizing base with
  | nil => exact failsWith_ok _
  | cons v items ih =>
    obtain ⟨hv, hitems⟩ := List.forall_mem_cons.1 h
    simp only [itemSlots, hv, ok_bind, List.map_cons, Wire.starts]
    refine failsWith_bind ?_ fun slot _ => ?_
    · intro e he
      exact ⟨base, List.mem_cons_self, offsetSlot_fails base e he⟩
    · refine failsWith_bind ?_ fun slots _ => failsWith_ok _
      intro e he
      obtain ⟨offset, hoffset, hmax⟩ := ih hitems _ e he
      exact ⟨offset, List.mem_cons_of_mem _ hoffset, hmax⟩

/-- The inline part of a container fails only for a payload that starts out of reach. -/
theorem inlineParts_fails {fields : List (Field Kind)} {values : List Value}
    (h : FieldsHold fields values) (base : Nat) :
    FailsWith (fun e => ∃ offset ∈ Wire.starts base (Wire.payloads (parts fields values)),
      Wire.maxOffset < offset ∧ e = .itemTooLarge offset Wire.maxOffset)
      (inlineParts base fields values) := by
  induction h generalizing base with
  | nil =>
    rw [inlineParts]
    · exact failsWith_ok _
    · simp
  | @cons f v fields values hholds _ ih =>
    rw [inlineParts, parts_cons, part, Wire.payloads]
    cases hfixed : f.kind.isFixedSize with
    | true =>
      -- a value in place has been written, because nothing in it needs a slot
      have hencode := (encode_eq_ok hholds).2 ⟨placed_of_fixed hholds hfixed, rfl⟩
      simp only [if_true, hencode, ok_bind]
      exact failsWith_bind (ih base) fun bs _ => failsWith_ok _
    | false =>
      simp only [Bool.false_eq_true, if_false, valueSize_eq hholds, ok_bind, Wire.starts]
      refine failsWith_bind ?_ fun slot _ => ?_
      · intro e he
        exact ⟨base, List.mem_cons_self, offsetSlot_fails base e he⟩
      · refine failsWith_bind ?_ fun bs _ => failsWith_ok _
        intro e he
        obtain ⟨offset, hoffset, hmax⟩ := ih _ e he
        exact ⟨offset, List.mem_cons_of_mem _ hoffset, hmax⟩

theorem payloadParts_fails {fields : List (Field Kind)} {values : List Value}
    {P : CodecError → Prop}
    (h : ∀ p ∈ fields.zip values, FailsWith P (p.1.kind.encode p.2)) :
    FailsWith P (payloadParts fields values) := by
  induction fields generalizing values with
  | nil =>
    rw [payloadParts]
    · exact failsWith_ok _
    · simp
  | cons f fields ih =>
    cases values with
    | nil =>
      rw [payloadParts]
      · exact failsWith_ok _
      · simp
    | cons v values =>
      obtain ⟨hv, hvalues⟩ := List.forall_mem_cons.1 h
      rw [payloadParts]
      split
      · exact ih hvalues
      · refine failsWith_bind hv fun b _ => failsWith_bind (ih hvalues) fun bs _ => ?_
        exact failsWith_ok _

/-- A start that is out of reach, in a region of the value. -/
theorem overruns_of_mem {regions : List (List Wire.Part)} {ps : List Wire.Part}
    (hps : ps ∈ regions) {e : CodecError}
    (h : ∃ offset ∈ Wire.starts (Wire.inlineSize ps) (Wire.payloads ps),
      Wire.maxOffset < offset ∧ e = .itemTooLarge offset Wire.maxOffset) :
    Wire.Overruns regions e := by
  obtain ⟨offset, hoffset, hmax⟩ := h
  exact ⟨ps, hps, offset, Wire.exists_of_mem_starts hoffset, hmax⟩

theorem encodeItems_overruns {item : Kind} {items : List Value}
    (each : ∀ v ∈ items, item.Holds v)
    (ih : ∀ v ∈ items, FailsWith (Wire.Overruns (item.regions v)) (item.encode v)) :
    FailsWith (Wire.Overruns (sequenceRegions item (fun v => item.regions v) items))
      (encodeItems item (fun v => item.encode v) items) := by
  have hitems : FailsWith (Wire.Overruns (sequenceRegions item (fun v => item.regions v) items))
      (mapItems (fun v => item.encode v) items) := by
    refine failsWith_mapItems fun v hv e he => (ih v hv e he).mono fun ps hps => ?_
    exact mem_sequenceRegions.2 (.inr ⟨v, hv, hps⟩)
  rw [encodeItems, isFixedSize_eq_not_isVariable]
  cases hvariable : item.isVariable with
  | false => exact failsWith_bind hitems fun _ _ => failsWith_ok _
  | true =>
    refine failsWith_bind ?_ fun slots _ => failsWith_bind hitems fun _ _ => failsWith_ok _
    -- the table is the inline part of the region that the items are the payloads of
    have hregion : (items.map fun v => (⟨false, item.wire v⟩ : Wire.Part)) =
        Wire.tabled (items.map fun v => item.wire v) := by
      rw [Wire.tabled, List.map_map]
      rfl
    have hsize : ∀ v ∈ items, item.valueSize v = .ok (item.wire v).length := by
      intro v hv
      rw [valueSize_eq (each v hv), layout_eq_wire]
    intro e he
    refine overruns_of_mem (mem_sequenceRegions.2 (.inl ⟨hvariable, rfl⟩)) ?_
    rw [hregion, Wire.payloads_tabled, Wire.inlineSize_tabled, List.length_map, Nat.mul_comm]
    exact itemSlots_fails hsize _ e he

/-- **Encoding fails only for a payload that starts out of reach.** -/
theorem encode_overruns {k : Kind} {v : Value} (h : k.Holds v) :
    FailsWith (Wire.Overruns (k.regions v)) (k.encode v) := by
  -- by induction on the value that the kind holds: sizes are always found, shapes always fit, and
  -- the regions of a member are among those of the whole
  induction h with
  | bytes _ _ => exact failsWith_ok _
  | uint _ _ => exact failsWith_ok _
  | byteList _ => exact failsWith_ok _
  | vector _ _ _ each ih =>
    rw [encode, regions]
    exact encodeItems_overruns each ih
  | list _ _ each ih =>
    rw [encode, regions]
    exact encodeItems_overruns each ih
  | @container name fields values _ length each ih =>
    have hfields : FieldsHold fields values := forall₂_fields length each
    have hparts : parts fields values = wireParts fields values :=
      parts_eq_wireParts (fun f _ v => layout_eq_wire f.kind v) values
    rw [encode, regions]
    refine failsWith_bind ?_ fun inline _ => failsWith_bind ?_ fun payloads _ => failsWith_ok _
    · intro e he
      have hstart := inlineParts_fails hfields _ e he
      rw [Wire.fixedPartSize_eq_inlineSize (shape_parts hfields), hparts] at hstart
      exact overruns_of_mem List.mem_cons_self hstart
    · refine payloadParts_fails fun p hp e he => (ih p hp e he).mono fun ps hps => ?_
      exact List.mem_cons_of_mem _ (mem_fieldRegions.2 ⟨p, hp, hps⟩)

end Kind

namespace Schema

variable {s : Schema} {r : Record}

/-- The size of a record that fits is found, and it is that of its layout. -/
theorem recordSize_eq (valid : s.Valid) (conforms : s.Conforms r) :
    s.recordSize r = .ok (s.layout r).length := by
  have hsize := Kind.valueSize_eq (holds_iff.2 ⟨valid, conforms⟩)
  rw [kind, Kind.valueSize] at hsize
  exact hsize

/-- What is in order is encoded as the value of a container. -/
theorem encode_of_conforms (valid : s.Valid) (conforms : s.Conforms r) :
    s.encode r = s.kind.encode (.container r) := by
  have hvalid : s.validate = .ok () := valid
  have hcheck : s.check r = .ok () := conforms
  rw [encode, hvalid, ok_bind, hcheck, ok_bind, recordSize_eq valid conforms, ok_bind]

/-- A record that fits is encoded, or one of its payloads starts out of reach. -/
theorem encode_overruns (valid : s.Valid) (conforms : s.Conforms r) :
    FailsWith (Wire.Overruns (s.kind.regions (.container r))) (s.encode r) := by
  rw [encode_of_conforms valid conforms]
  exact Kind.encode_overruns (holds_iff.2 ⟨valid, conforms⟩)

/-- In a record that is encoded every payload is in reach. -/
theorem le_maxOffset_of_encode {data : Bytes} (h : s.encode r = .ok data) {ps : List Wire.Part}
    (hps : ps ∈ s.kind.regions (.container r)) {offset : Nat} (hstart : Wire.Starts ps offset) :
    offset ≤ Wire.maxOffset := by
  obtain ⟨hr, hplaced, -⟩ := encode_eq_ok.1 h
  have hexact := Kind.exact_of_placed (holds_iff.2 hr) hplaced
  obtain ⟨i, hi, hinline, rfl⟩ := hstart
  exact Nat.le_of_lt_succ (Kind.pointed_of_exact hexact ps hps i hi hinline)

/-- **When a record is encoded, and as how many bytes.**  The size of a record that fits is always
found.  The record is encoded as that many bytes, unless a payload of one of its regions starts
where no slot can point to; then this start is what the error names. -/
theorem encode_of_size (valid : s.Valid) (conforms : s.Conforms r) :
    ∃ n, s.recordSize r = .ok n ∧
      ((∃ data, s.encode r = .ok data ∧ data.length = n) ∨
        ∃ ps ∈ s.kind.regions (.container r), ∃ offset, Wire.Starts ps offset ∧
          Wire.maxOffset < offset ∧ s.encode r = .error (.itemTooLarge offset Wire.maxOffset)) ∧
      ((∃ e, s.encode r = .error e) ↔ ∃ ps ∈ s.kind.regions (.container r), ∃ offset,
        Wire.Starts ps offset ∧ Wire.maxOffset < offset) ∧
      (n ≤ Wire.maxOffset → ∃ data, s.encode r = .ok data) := by
  have hfails := encode_overruns valid conforms
  refine ⟨(s.layout r).length, recordSize_eq valid conforms, ?_, ?_, ?_⟩
  · cases h : s.encode r with
    | ok data =>
      obtain ⟨-, -, rfl⟩ := encode_eq_ok.1 h
      exact .inl ⟨_, rfl, rfl⟩
    | error e =>
      obtain ⟨ps, hps, offset, hstart, hmax, rfl⟩ := hfails e h
      exact .inr ⟨ps, hps, offset, hstart, hmax, rfl⟩
  · constructor
    · rintro ⟨e, he⟩
      obtain ⟨ps, hps, offset, hstart, hmax, -⟩ := hfails e he
      exact ⟨ps, hps, offset, hstart, hmax⟩
    · rintro ⟨ps, hps, offset, hstart, hmax⟩
      cases h : s.encode r with
      | ok data => exact absurd (le_maxOffset_of_encode h hps hstart) (Nat.not_le.2 hmax)
      | error e => exact ⟨e, rfl⟩
  · intro hn
    cases h : s.encode r with
    | ok data => exact ⟨data, rfl⟩
    | error e =>
      -- the payload would start behind the end of the record
      obtain ⟨ps, hps, offset, hstart, hmax, -⟩ := hfails e h
      have hle := Kind.le_length_of_starts hps hstart
      rw [← Kind.layout_eq_wire] at hle
      exact absurd (hle.trans hn) (Nat.not_le.2 hmax)

theorem encode_of_size_overrun :
    let s : Schema := ⟨"Pair", [⟨"body", .byteList 4294967296, .reject⟩,
      ⟨"tail", .byteList 8, .reject⟩]⟩
    let r : Record := [.bytes (List.replicate 4294967296 0), .bytes [7]]
    s.Valid ∧ s.Conforms r ∧ ∃ offset, Wire.maxOffset < offset ∧
      s.encode r = .error (.itemTooLarge offset Wire.maxOffset) := by
  intro s r
  have valid : s.Valid := by
    unfold s
    rfl
  -- of the long payload only its length is looked at
  have key (body : Bytes) (hbody : body.length = 4294967296) :
      s.Conforms [.bytes body, .bytes [7]] ∧ ∃ offset, Wire.maxOffset < offset ∧
        s.encode [.bytes body, .bytes [7]] = .error (.itemTooLarge offset Wire.maxOffset) := by
    have conforms : s.Conforms [.bytes body, .bytes [7]] :=
      conforms_iff.2 (.cons (.byteList hbody.le) (.cons (.byteList (by decide)) .nil))
    have hstart : Wire.Starts (Kind.wireParts s.fields [.bytes body, .bytes [7]]) 4294967304 := by
      refine ⟨1, Nat.lt_succ_self 1, rfl, ?_⟩
      show 4294967304 = 8 + (body.length + 0)
      omega
    have hmem : Kind.wireParts s.fields [.bytes body, .bytes [7]] ∈
        s.kind.regions (.container [.bytes body, .bytes [7]]) := List.mem_cons_self
    obtain ⟨n, -, hsize, hfails, -⟩ := encode_of_size valid conforms
    obtain ⟨e, he⟩ := hfails.2 ⟨_, hmem, _, hstart, by decide⟩
    refine ⟨conforms, ?_⟩
    rcases hsize with ⟨data, hdata, -⟩ | ⟨-, -, offset, -, hmax, herror⟩
    · rw [he] at hdata
      cases hdata
    · exact ⟨offset, hmax, herror⟩
  exact ⟨valid, key _ List.length_replicate⟩

end Schema

end SszRecord

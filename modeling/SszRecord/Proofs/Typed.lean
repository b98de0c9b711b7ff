/-
Types bound to schemas.

A type, its schema, its records and its reader are written down apart from each other.
`Typed.Exact` says that they agree: the values of the type are the records that fit the schema.  It
is shown column by column.  A `Column` says of one field what `Typed.Exact` says of a type, and
`InStep` puts columns together to records.

* `Kind.nesting_le_of_fits` : a value is not nested deeper than its kind;
* `Column.list` : lists of the data of a column are the data of a column;
* `InStep.run_eq`, `InStep.failsWith_checkFields` : what readers and checks do with such records;
* `Typed.exact_of_inStep` : a type is exact if its columns are in step;
* `Typed.Exact.column` : an exact type is the data of a column.
-/
import Mathlib
import SszRecord.Proofs.Limits
import SszRecord.Typed

namespace SszRecord

/-! ### Levels -/

namespace Kind

theorem deepest_le_of_forall₂ {fields : List (Field Kind)} {values : List Value}
    (h : List.Forall₂ (fun f v => v.nesting ≤ f.kind.nesting) fields values) :
    Value.deepest values ≤ deepest fields := by
  induction h with
  | nil => exact le_rfl
  | cons hf _ ih =>
    rw [Value.deepest, deepest]
    exact max_le_max hf ih

/-- A value is not nested deeper than its kind. -/
theorem nesting_le_of_fits {k : Kind} {v : Value} (h : k.Fits v) : v.nesting ≤ k.nesting := by
  have items_le {items : List Value} {n : Nat} (h : ∀ v ∈ items, v.nesting ≤ n) :
      Value.deepest items ≤ n := by
    induction items with
    | nil => exact Nat.zero_le _
    | cons v items ih =>
      obtain ⟨hv, hitems⟩ := List.forall_mem_cons.1 h
      exact max_le hv (ih hitems)
  induction h with
  | bytes => exact le_rfl
  | uint => exact le_rfl
  | byteList => exact le_rfl
  | vector _ _ ih => exact Nat.succ_le_succ (items_le ih)
  | list _ _ ih => exact Nat.succ_le_succ (items_le ih)
  | container length _ ih =>
    exact Nat.succ_le_succ (deepest_le_of_forall₂
      (forall₂_fields (R := fun k v => v.nesting ≤ k.nesting) length.symm ih))

end Kind

/-- A record is not nested deeper than its schema. -/
theorem Schema.nesting_le_of_conforms {s : Schema} {r : Record} (h : s.Conforms r) :
    Record.nesting r ≤ s.nesting :=
  Kind.deepest_le_of_forall₂ ((conforms_iff.1 h).imp fun _ _ => Kind.nesting_le_of_fits)

/-! ### Columns -/

/-- More bytes than there may be. -/
def TooLarge (max : Nat) (b : Bytes) (e : CodecError) : Prop :=
  max < b.length ∧ e = .itemTooLarge b.length max

/-- More items than there may be. -/
def TooLong {β : Type} (max : Nat) (items : List β) (e : CodecError) : Prop :=
  max < items.length ∧ e = .listTooLong items.length max

/-- A column of records: the kind of a field, how data is written as values of this kind and how it
is read back.  Only an excess keeps the value of some data from fitting the kind. -/
structure Column {β : Type} (kind : Kind) (value : β → Value) (get : FieldRead β)
    (Excess : β → CodecError → Prop) : Prop where
  read : ∀ b rest i, get.runAt ⟨value b :: rest, i⟩ = (.ok b, ⟨rest, i + 1⟩)
  check : ∀ b place, FailsWith (Excess b) (kind.check place (value b))
  exists_of_fits : ∀ v, kind.Fits v → ∃ b, value b = v

theorem Kind.forall_fieldsFit_nil {P : List Value → Prop} (h : P []) :
    ∀ values, FieldsFit [] values → P values := by
  intro values hvalues
  cases hvalues
  exact h

namespace Column

variable {β : Type} {kind : Kind} {value : β → Value} {get : FieldRead β}
  {Excess : β → CodecError → Prop}

/-- To look at all values that fit is to look at the data of the first column, one by one. -/
theorem forall_fieldsFit (column : Column kind value get Excess) {key : String}
    {absent : AbsentPolicy} {fields : List (Field Kind)} {P : List Value → Prop}
    (h : ∀ b values, Kind.FieldsFit fields values → P (value b :: values)) :
    ∀ values, Kind.FieldsFit (⟨key, kind, absent⟩ :: fields) values → P values := by
  intro values hvalues
  obtain ⟨v, rest, hv, hrest, rfl⟩ := List.forall₂_cons_left_iff.1 hvalues
  obtain ⟨b, rfl⟩ := column.exists_of_fits v hv
  exact h b rest hrest

/-- A list of what is itself data of a column is data of a column too. -/
theorem list (column : Column kind value get Excess) (max : Nat)
    {getItem : Value → Except CodecError β} (hget : ∀ b, getItem (value b) = .ok b) :
    Column (.list kind max) (fun bs => .list (bs.map value))
      (do mapItems getItem (← .items))
      fun bs e => TooLong max bs e ∨ ∃ b ∈ bs, Excess b e where
  read bs rest i := by
    have hbs : mapItems getItem (bs.map value) = .ok (bs.map id) := by
      rw [mapItems_map]
      exact mapItems_ok fun b _ => hget b
    rw [List.map_id] at hbs
    have hitems : FieldRead.items.runAt ⟨.list (bs.map value) :: rest, i⟩ =
        (.ok (bs.map value), ⟨rest, i + 1⟩) := rfl
    rw [FieldRead.runAt_bind_of_ok hitems, FieldRead.runAt_lift, hbs]
  check bs place := by
    rw [Kind.check, List.length_map]
    by_cases hlen : bs.length ≤ max
    · rw [if_pos hlen]
      refine failsWith_checkItems (fun v hv i e he => ?_) 0
      obtain ⟨b, hb, rfl⟩ := List.mem_map.1 hv
      exact .inr ⟨b, hb, column.check b _ e he⟩
    · rw [if_neg hlen]
      exact failsWith_error (.inl ⟨Nat.lt_of_not_le hlen, rfl⟩)
  exists_of_fits v hv := by
    cases hv with
    | @list _ _ items _ each =>
      obtain ⟨bs, hbs⟩ := exists_forall₂ fun v hv => column.exists_of_fits v (each v hv)
      refine ⟨bs, congrArg Value.list ?_⟩
      rw [← List.forall₂_eq_eq_eq, List.forall₂_map_left_iff]
      exact hbs.flip

end Column

/-- Fields, the values of `x` for them and a reader that takes `x` off these values, column by
column.  The excesses of all columns satisfy `P`. -/
inductive InStep {α : Type} (P : CodecError → Prop) :
    List (Field Kind) → List Value → FieldRead α → α → Prop
  | done (x : α) : InStep P [] [] (pure x) x
  | next {β : Type} {kind : Kind} {value : β → Value} {get : FieldRead β}
      {Excess : β → CodecError → Prop} {b : β} {key : String} {absent : AbsentPolicy}
      {fields : List (Field Kind)} {values : List Value} {read : β → FieldRead α} {x : α}
      (column : Column kind value get Excess) (excess : ∀ e, Excess b e → P e)
      (rest : InStep P fields values (read b) x) :
      InStep P (⟨key, kind, absent⟩ :: fields) (value b :: values) (get >>= read) x

namespace InStep

variable {α β : Type} {P : CodecError → Prop} {fields fields' : List (Field Kind)}
  {values values' : List Value} {read : FieldRead α} {x : α}

/-- A column without excesses in front. -/
theorem plain {kind : Kind} {value : β → Value} {get : FieldRead β} {b : β} {key : String}
    {absent : AbsentPolicy} {read : β → FieldRead α}
    (column : Column kind value get fun _ _ => False) (rest : InStep P fields values (read b) x) :
    InStep P (⟨key, kind, absent⟩ :: fields) (value b :: values) (get >>= read) x :=
  .next column (fun _ => False.elim) rest

theorem length_eq (h : InStep P fields values read x) : values.length = fields.length := by
  induction h with
  | done => rfl
  | next _ _ _ ih => rw [List.length_cons, ih, List.length_cons]

/-- The reader takes `x` off its values and leaves what is behind them. -/
theorem run_eq (h : InStep P fields values read x) (rest : List Value) (i : Nat) :
    read.runAt ⟨values ++ rest, i⟩ = (.ok x, ⟨rest, i + fields.length⟩) := by
  induction h generalizing i with
  | done x => rfl
  | next column _ _ ih =>
    rw [List.cons_append, FieldRead.runAt_bind_of_ok (column.read _ _ i), ih, List.length_cons,
      Nat.add_right_comm, Nat.add_assoc]

/-- The values are refused for an excess and for nothing else. -/
theorem failsWith_checkFields (h : InStep P fields values read x) (owner : String) :
    FailsWith P (Kind.checkFields owner fields values) := by
  induction h with
  | done => exact failsWith_ok ()
  | next column excess _ ih =>
    rw [Kind.checkFields]
    refine failsWith_bind (fun e he => ?_) fun _ _ => ih
    exact excess e (column.check _ _ e he)

/-- Columns behind columns. -/
theorem append {read' : α → FieldRead β} {y : β} (h : InStep P fields values read x)
    (h' : InStep P fields' values' (read' x) y) :
    InStep P (fields ++ fields') (values ++ values') (read >>= read') y := by
  induction h with
  | done => rwa [pure_bind]
  | next column excess _ ih =>
    rw [bind_assoc]
    exact .next column excess (ih h')

end InStep

namespace Typed

variable {α : Type} [Typed α]

/-- The values of a type are exactly the records that fit its schema.  Only an excess, as `Excess`
tells it of a value and an error, keeps the record of a value from fitting. -/
structure Exact (α : Type) [Typed α] (Excess : α → CodecError → Prop) : Prop where
  /-- A value is read off its own record. -/
  ofRecord_toRecord : ∀ x : α, ofRecord (toRecord x) = .ok x
  /-- The record of a value is refused for an excess and for nothing else. -/
  excess_of_check : ∀ (x : α) (e : CodecError),
    (schema α).check (toRecord x) = .error e → Excess x e
  /-- A record that fits is the record of the value that is read off it. -/
  toRecord_ofRecord : ∀ r : Record, (schema α).Conforms r →
    ∃ x : α, ofRecord r = .ok x ∧ toRecord x = r
  /-- A value is decoded from its encoding. -/
  decode_encode : ∀ (x : α) (data : Bytes), encode x = .ok data → decode data = .ok x
  /-- A value is encoded as what it was decoded from. -/
  encode_decode : ∀ (x : α) (data : Bytes), decode data = .ok x → encode x = .ok data

/-- **A type is exact** if its records are in step with its schema and its reader, and if all that
fits the schema is the record of some value. -/
theorem exact_of_inStep {Excess : α → CodecError → Prop}
    (levels : (schema α).nesting ≤ defaultMaxDepth)
    (inStep : ∀ x : α, InStep (Excess x) (schema α).fields (toRecord x) read x)
    (fits : ∀ values, Kind.FieldsFit (schema α).fields values → ∃ x : α, toRecord x = values) :
    Exact α Excess := by
  have hread (x : α) : ofRecord (toRecord x) = .ok x := by
    have h := (inStep x).run_eq [] 0
    rw [List.append_nil] at h
    rw [ofRecord, FieldRead.run, Cursor.ofRecord, h]
  have hcheck (x : α) : FailsWith (Excess x) ((schema α).check (toRecord x)) := by
    rw [Schema.check, if_pos (inStep x).length_eq]
    exact (inStep x).failsWith_checkFields _
  have hfits (r : Record) (h : (schema α).Conforms r) :
      ∃ x : α, ofRecord r = .ok x ∧ toRecord x = r := by
    obtain ⟨x, rfl⟩ := fits r (Schema.conforms_iff.1 h)
    exact ⟨x, hread x, rfl⟩
  refine ⟨hread, hcheck, hfits, fun x data h => ?_, fun x data h => ?_⟩
  · obtain ⟨⟨-, conforms⟩, -⟩ := Schema.encode_eq_ok.1 h
    have hlevels := (Schema.nesting_le_of_conforms conforms).trans levels
    rw [decode, Schema.decode_eq_ok_iff.2 ⟨h, hlevels⟩, ok_bind, hread]
  · obtain ⟨r, hr, hx⟩ := bind_eq_ok.1 h
    obtain ⟨hencode, -⟩ := Schema.decode_eq_ok_iff.1 hr
    obtain ⟨⟨-, conforms⟩, -⟩ := Schema.encode_eq_ok.1 hencode
    -- the record has one value, and the value has this record
    obtain ⟨x', hx', rfl⟩ := hfits r conforms
    rw [hx, Except.ok.injEq] at hx'
    rw [encode, hx', hencode]

/-- A field may hold the records of an exact type. -/
theorem Exact.column {Excess : α → CodecError → Prop} (exact : Exact α Excess) :
    Column (schema α).kind (fun x => .container (toRecord x)) readField Excess where
  read x rest i := by
    have hrecord : FieldRead.record.runAt ⟨.container (toRecord x) :: rest, i⟩ =
        (.ok (toRecord x), ⟨rest, i + 1⟩) := rfl
    rw [readField, FieldRead.runAt_bind_of_ok hrecord, FieldRead.runAt_lift,
      exact.ofRecord_toRecord]
  check x place := by
    rw [Schema.kind, Kind.check]
    exact exact.excess_of_check x
  exists_of_fits v hv := by
    rw [Schema.kind] at hv
    cases hv with
    | @container _ _ values length each =>
      have hvalues : Kind.FieldsFit (schema α).fields values := Kind.forall₂_fields length.symm each
      obtain ⟨x, -, rfl⟩ := exact.toRecord_ofRecord values (Schema.conforms_iff.2 hvalues)
      exact ⟨x, rfl⟩

end Typed

end SszRecord

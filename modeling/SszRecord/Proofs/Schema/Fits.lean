/-
The kinds that schemas may hold, and the values that fit them.

Checking a schema or a record stops at the first fault and reports its place.  What passes does not
depend on places: `Kind.Sound` says which kinds a schema may hold and `Kind.Fits` which values fit
a kind, and the checks decide them:

* `Kind.validate_eq_ok`, `Schema.valid_iff`;
* `Kind.check_eq_ok`, `Schema.conforms_iff`.

`Kind.induct` is the induction on kinds that all of the theory uses: a container may assume the
statement for the kinds of its fields.
-/
import Mathlib
import SszRecord.Proofs.Items
import SszRecord.Schema.Conformance
import SszRecord.Schema.Validity

namespace SszRecord

namespace Kind

/-- Induction on kinds. -/
@[elab_as_elim, induction_eliminator]
theorem induct {motive : Kind → Prop} (bytes : ∀ n, motive (.bytes n))
    (uint : ∀ w, motive (.uint w)) (byteList : ∀ max, motive (.byteList max))
    (vector : ∀ item n, motive item → motive (.vector item n))
    (list : ∀ item max, motive item → motive (.list item max))
    (container : ∀ name fields, (∀ f ∈ fields, motive f.kind) → motive (.container name fields))
    (k : Kind) : motive k := by
  refine @Kind.rec motive (fun fields => ∀ f ∈ fields, motive f.kind) (fun f => motive f.kind)
    bytes uint byteList vector list container ?_ ?_ ?_ k
  · intro f hf
    cases hf
  · intro f fields hf hfields
    exact List.forall_mem_cons.2 ⟨hf, hfields⟩
  · intro _ _ _ hk
    exact hk

/-- The kinds that a schema may hold. -/
inductive Sound : Kind → Prop
  | bytes {n : Nat} (pos : 0 < n) : Sound (.bytes n)
  | uint {w : Nat} (width : w ∈ uintWidths) : Sound (.uint w)
  | byteList {max : Nat} : Sound (.byteList max)
  | vector {item : Kind} {n : Nat} (pos : 0 < n) (each : Sound item) : Sound (.vector item n)
  | list {item : Kind} {max : Nat} (each : Sound item) : Sound (.list item max)
  | container {name : String} {fields : List (Field Kind)} (nonempty : fields ≠ [])
      (each : ∀ f ∈ fields, Sound f.kind) : Sound (.container name fields)

/-- The values that fit a kind. -/
inductive Fits : Kind → Value → Prop
  | bytes {n : Nat} {b : Bytes} (length : b.length = n) : Fits (.bytes n) (.bytes b)
  | uint {w : Nat} {u : UInt256} (width : u.FitsWidth w) : Fits (.uint w) (.uint u)
  | byteList {max : Nat} {b : Bytes} (length : b.length ≤ max) : Fits (.byteList max) (.bytes b)
  | vector {item : Kind} {n : Nat} {items : List Value} (length : items.length = n)
      (each : ∀ v ∈ items, Fits item v) : Fits (.vector item n) (.vector items)
  | list {item : Kind} {max : Nat} {items : List Value} (length : items.length ≤ max)
      (each : ∀ v ∈ items, Fits item v) : Fits (.list item max) (.list items)
  | container {name : String} {fields : List (Field Kind)} {values : List Value}
      (length : values.length = fields.length)
      (each : ∀ p ∈ fields.zip values, Fits p.1.kind p.2) :
      Fits (.container name fields) (.container values)

/-- The values of fields, each of them fitting the kind of its own field. -/
abbrev FieldsFit (fields : List (Field Kind)) (values : List Value) : Prop :=
  List.Forall₂ (fun f v => f.kind.Fits v) fields values

/-- The values that fit a sound kind.  Most of the theory is by induction on this. -/
inductive Holds : Kind → Value → Prop
  | bytes {n : Nat} {b : Bytes} (pos : 0 < n) (length : b.length = n) :
      Holds (.bytes n) (.bytes b)
  | uint {w : Nat} {u : UInt256} (width : w ∈ uintWidths) (fits : u.FitsWidth w) :
      Holds (.uint w) (.uint u)
  | byteList {max : Nat} {b : Bytes} (length : b.length ≤ max) : Holds (.byteList max) (.bytes b)
  | vector {item : Kind} {n : Nat} {items : List Value} (pos : 0 < n) (sound : item.Sound)
      (length : items.length = n) (each : ∀ v ∈ items, Holds item v) :
      Holds (.vector item n) (.vector items)
  | list {item : Kind} {max : Nat} {items : List Value} (sound : item.Sound)
      (length : items.length ≤ max) (each : ∀ v ∈ items, Holds item v) :
      Holds (.list item max) (.list items)
  | container {name : String} {fields : List (Field Kind)} {values : List Value}
      (nonempty : fields ≠ []) (length : fields.length = values.length)
      (each : ∀ p ∈ fields.zip values, Holds p.1.kind p.2) :
      Holds (.container name fields) (.container values)

/-- The values of fields, each of them fitting the sound kind of its own field. -/
abbrev FieldsHold (fields : List (Field Kind)) (values : List Value) : Prop :=
  List.Forall₂ (fun f v => f.kind.Holds v) fields values

/-- What holds of all fields and their values holds of the two lists side by side. -/
theorem forall₂_fields {R : Kind → Value → Prop} {fields : List (Field Kind)}
    {values : List Value} (length : fields.length = values.length)
    (each : ∀ p ∈ fields.zip values, R p.1.kind p.2) :
    List.Forall₂ (fun f v => R f.kind v) fields values :=
  List.forall₂_iff_zip.2 ⟨length, fun hp => each _ hp⟩

theorem width_le {w : Nat} (h : w ∈ uintWidths) : w ≤ 32 := by
  fin_cases h <;> decide

theorem fits_bytes {n : Nat} {b : Bytes} : Fits (.bytes n) (.bytes b) ↔ b.length = n :=
  ⟨fun h => by cases h; assumption, .bytes⟩

theorem fits_uint {w : Nat} {u : UInt256} : Fits (.uint w) (.uint u) ↔ u.FitsWidth w :=
  ⟨fun h => by cases h; assumption, .uint⟩

theorem fits_byteList {max : Nat} {b : Bytes} :
    Fits (.byteList max) (.bytes b) ↔ b.length ≤ max :=
  ⟨fun h => by cases h; assumption, .byteList⟩

theorem fits_vector {item : Kind} {n : Nat} {items : List Value} :
    Fits (.vector item n) (.vector items) ↔ items.length = n ∧ ∀ v ∈ items, item.Fits v :=
  ⟨fun h => by cases h; exact ⟨‹_›, ‹_›⟩, fun h => .vector h.1 h.2⟩

theorem fits_list {item : Kind} {max : Nat} {items : List Value} :
    Fits (.list item max) (.list items) ↔ items.length ≤ max ∧ ∀ v ∈ items, item.Fits v :=
  ⟨fun h => by cases h; exact ⟨‹_›, ‹_›⟩, fun h => .list h.1 h.2⟩

theorem fits_container {name : String} {fields : List (Field Kind)} {values : List Value} :
    Fits (.container name fields) (.container values) ↔ FieldsFit fields values := by
  rw [FieldsFit, List.forall₂_iff_zip]
  constructor
  · intro h
    cases h with
    | container length each => exact ⟨length.symm, fun hp => each _ hp⟩
  · rintro ⟨length, each⟩
    exact .container length.symm fun _ hp => each hp

theorem sound_vector {item : Kind} {n : Nat} : Sound (.vector item n) ↔ 0 < n ∧ item.Sound :=
  ⟨fun h => by cases h; exact ⟨‹_›, ‹_›⟩, fun h => .vector h.1 h.2⟩

theorem sound_list {item : Kind} {max : Nat} : Sound (.list item max) ↔ item.Sound :=
  ⟨fun h => by cases h; assumption, .list⟩

theorem sound_container {name : String} {fields : List (Field Kind)} :
    Sound (.container name fields) ↔ fields ≠ [] ∧ ∀ f ∈ fields, f.kind.Sound :=
  ⟨fun h => by cases h; exact ⟨‹_›, ‹_›⟩, fun h => .container h.1 h.2⟩

theorem holds_container {name : String} {fields : List (Field Kind)} {values : List Value} :
    Holds (.container name fields) (.container values) ↔
      fields ≠ [] ∧ FieldsHold fields values := by
  rw [FieldsHold, List.forall₂_iff_zip]
  constructor
  · intro h
    cases h with
    | container nonempty length each => exact ⟨nonempty, length, fun hp => each _ hp⟩
  · rintro ⟨nonempty, length, each⟩
    exact .container nonempty length fun _ hp => each hp

/-- Fitting and being sound can be told apart. -/
theorem holds_iff {k : Kind} {v : Value} : k.Holds v ↔ k.Sound ∧ k.Fits v := by
  constructor
  · intro h
    induction h with
    | bytes pos length => exact ⟨.bytes pos, .bytes length⟩
    | uint width fits => exact ⟨.uint width, .uint fits⟩
    | byteList length => exact ⟨.byteList, .byteList length⟩
    | vector pos sound length _ ih =>
      exact ⟨.vector pos sound, .vector length fun v hv => (ih v hv).2⟩
    | list sound length _ ih => exact ⟨.list sound, .list length fun v hv => (ih v hv).2⟩
    | container nonempty length _ ih =>
      have hfields := forall₂_fields (R := fun k v => k.Sound ∧ k.Fits v) length ih
      refine ⟨.container nonempty fun f hf => ?_, .container length.symm fun p hp => (ih p hp).2⟩
      -- every field has a value, and the hypothesis on this value tells that its kind is sound
      obtain ⟨v, hsound, -⟩ := exists_of_forall₂ hfields f hf
      exact hsound
  · rintro ⟨hk, hv⟩
    induction hv with
    | bytes length =>
      cases hk
      exact .bytes ‹_› length
    | uint fits =>
      cases hk
      exact .uint ‹_› fits
    | byteList length => exact .byteList length
    | vector length _ ih =>
      obtain ⟨pos, sound⟩ := sound_vector.1 hk
      exact .vector pos sound length fun v hv => ih v hv sound
    | list length _ ih =>
      have sound := sound_list.1 hk
      exact .list sound length fun v hv => ih v hv sound
    | container length _ ih =>
      obtain ⟨nonempty, sound⟩ := sound_container.1 hk
      exact .container nonempty length.symm fun p hp =>
        ih p hp (sound _ (List.of_mem_zip hp).1)

/-! ### What the checks decide -/

theorem validateFields_eq_ok {owner : String} {fields : List (Field Kind)}
    (ih : ∀ f ∈ fields, ∀ place, f.kind.validate place = .ok () ↔ f.kind.Sound) :
    validateFields owner fields = .ok () ↔ ∀ f ∈ fields, f.kind.Sound := by
  induction fields with
  | nil => simp [validateFields]
  | cons f fields ihfields =>
    obtain ⟨hf, hfields⟩ := List.forall_mem_cons.1 ih
    rw [validateFields, bind_eq_ok, List.forall_mem_cons]
    constructor
    · rintro ⟨⟨⟩, h, hrest⟩
      exact ⟨(hf _).1 h, (ihfields hfields).1 hrest⟩
    · rintro ⟨h, hrest⟩
      exact ⟨(), (hf _).2 h, (ihfields hfields).2 hrest⟩

theorem validate_eq_ok {k : Kind} (place : Place) : k.validate place = .ok () ↔ k.Sound := by
  induction k generalizing place with
  | bytes n =>
    rw [validate, refuse_eq_ok]
    exact ⟨fun h => .bytes (Nat.pos_of_ne_zero h.1), fun h => by cases h; exact ⟨by omega, rfl⟩⟩
  | uint w =>
    rw [validate, demand_eq_ok]
    exact ⟨fun h => .uint h.1, fun h => by cases h; exact ⟨‹_›, rfl⟩⟩
  | byteList max => exact ⟨fun _ => .byteList, fun _ => rfl⟩
  | vector item n ih =>
    rw [validate, refuse_eq_ok, ih, sound_vector, Nat.pos_iff_ne_zero]
  | list item max ih => rw [validate, ih, sound_list]
  | container name fields ih =>
    rw [validate, refuse_eq_ok, validateFields_eq_ok ih, sound_container, List.isEmpty_iff]

theorem checkFields_eq_ok {owner : String} {fields : List (Field Kind)} {values : List Value}
    (same : values.length = fields.length)
    (ih : ∀ f ∈ fields, ∀ place v, f.kind.check place v = .ok () ↔ f.kind.Fits v) :
    checkFields owner fields values = .ok () ↔ FieldsFit fields values := by
  induction fields generalizing values with
  | nil =>
    rw [List.eq_nil_of_length_eq_zero same]
    exact ⟨fun _ => .nil, fun _ => rfl⟩
  | cons f fields ihfields =>
    obtain ⟨hf, hfields⟩ := List.forall_mem_cons.1 ih
    cases values with
    | nil => cases same
    | cons v values =>
      have hrest := ihfields (Nat.succ.inj same) hfields
      rw [checkFields, bind_eq_ok, FieldsFit, List.forall₂_cons]
      constructor
      · rintro ⟨⟨⟩, h, hvalues⟩
        exact ⟨(hf _ _).1 h, hrest.1 hvalues⟩
      · rintro ⟨h, hvalues⟩
        exact ⟨(), (hf _ _).2 h, hrest.2 hvalues⟩

theorem check_eq_ok {k : Kind} (place : Place) (v : Value) :
    k.check place v = .ok () ↔ k.Fits v := by
  induction k generalizing place v with
  | bytes n =>
    cases v with
    | bytes b =>
      rw [check, demand_eq_ok, fits_bytes]
      exact and_iff_left rfl
    | _ => exact ⟨nofun, nofun⟩
  | uint w =>
    cases v with
    | uint u =>
      rw [check, demand_eq_ok, fits_uint]
      exact and_iff_left rfl
    | _ => exact ⟨nofun, nofun⟩
  | byteList max =>
    cases v with
    | bytes b =>
      rw [check, demand_eq_ok, fits_byteList]
      exact and_iff_left rfl
    | _ => exact ⟨nofun, nofun⟩
  | vector item n ih =>
    cases v with
    | vector items =>
      rw [check, demand_eq_ok, fits_vector, checkItems_eq_ok fun i v => ih (place.item i) v]
    | _ => exact ⟨nofun, nofun⟩
  | list item max ih =>
    cases v with
    | list items =>
      rw [check, demand_eq_ok, fits_list, checkItems_eq_ok fun i v => ih (place.item i) v]
    | _ => exact ⟨nofun, nofun⟩
  | container name fields ih =>
    cases v with
    | container values =>
      rw [check, demand_eq_ok, fits_container, and_congr_right fun same =>
        checkFields_eq_ok same ih]
      exact and_iff_right_of_imp fun h => h.length_eq.symm
    | _ => exact ⟨nofun, nofun⟩

end Kind

namespace Schema

/-- **Validation decides soundness.** -/
theorem valid_iff {s : Schema} : s.Valid ↔ s.kind.Sound := by
  rw [kind, ← Kind.validate_eq_ok ⟨s.name, "", []⟩, Kind.validate]
  exact Iff.rfl

/-- **Checking decides fit.** -/
theorem conforms_iff {s : Schema} {r : Record} :
    s.Conforms r ↔ Kind.FieldsFit s.fields r := by
  rw [← Kind.fits_container, ← Kind.check_eq_ok ⟨s.name, "", []⟩, Kind.check]
  exact Iff.rfl

/-- A record of an accepted schema is the value of a sound container. -/
theorem holds_iff {s : Schema} {r : Record} :
    s.kind.Holds (.container r) ↔ s.Valid ∧ s.Conforms r := by
  rw [valid_iff, conforms_iff, Kind.holds_iff, ← Kind.fits_container]
  exact Iff.rfl

end Schema

end SszRecord

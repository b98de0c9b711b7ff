/-
Checking while hashing.

Hashing does not rely on a check before it: on its way through a value it looks at every length,
width and maximum itself, and has its own words for what is wrong.  `CodecError.SameFault` relates
the errors of checking and of hashing that report one fault, and `Agree` says of two passes over a
value that both succeed or both stop at the same fault.

* `agree_items`, `Kind.agree_fields` : members are visited in the same order;
* `Kind.check_agrees_root` : checking and hashing agree on every value, with enough levels;
* `Schema.check_agrees` : so do checking, encoding and hashing on every record.
-/
import Mathlib
import SszRecord.Proofs.Merkle.Chunks
import SszRecord.Proofs.Merkle.Roots
import SszRecord.Proofs.Schema.Nesting
import SszRecord.Proofs.Schema.Within
import SszRecord.Proofs.Wire.Room

namespace SszRecord

/-- One fault, as checking and as hashing report it. -/
inductive CodecError.SameFault : CodecError → CodecError → Prop
  | tooManyBytes (length max : Nat) :
      SameFault (.itemTooLarge length max) (.limitExceeded length max)
  | tooManyItems (count max : Nat) :
      SameFault (.listTooLong count max) (.limitExceeded count max)
  /-- Hashing does not know where a value stands. -/
  | value (place : Place) (cause : Misshape) :
      SameFault (.mismatch (.value place cause)) (.mismatch (.value none cause))
  | fieldCount (container : String) (expected found : Nat) :
      SameFault (.mismatch (.fieldCount container expected found))
        (.mismatch (.fieldCount container expected found))
  /-- An item of a sequence of integers that is no integer. -/
  | packedShape (place : Place) (shape : String) (width : Nat) :
      SameFault (.mismatch (.value place (.shape shape "uint")))
        (.mismatch (.packedItem shape (width * 8)))
  /-- An item of a sequence of integers that is too wide. -/
  | packedWidth (place : Place) (u : UInt256) (width : Nat) :
      SameFault (.mismatch (.value place (.tooWide u width)))
        (.mismatch (.packedItem "uint" (width * 8)))

/-- Two passes both succeed, or both stop at the same fault. -/
inductive Agree {α β : Type} : Except CodecError α → Except CodecError β → Prop
  | ok (a : α) (b : β) : Agree (.ok a) (.ok b)
  | error {e e' : CodecError} (h : e.SameFault e') : Agree (.error e) (.error e')

section Passes

variable {α β γ δ : Type}

theorem agree_bind {x : Except CodecError α} {y : Except CodecError β}
    {f : α → Except CodecError γ} {g : β → Except CodecError δ} (h : Agree x y)
    (hfg : ∀ a b, Agree (f a) (g b)) : Agree (x >>= f) (y >>= g) := by
  cases h with
  | ok a b => exact hfg a b
  | error h => exact .error h

/-- As `agree_bind`, for a step that only one of the passes takes and that cannot fail. -/
theorem agree_then {x : Except CodecError α} {y : Except CodecError β}
    {g : β → Except CodecError δ} (h : Agree x y)
    (hg : ∀ b, y = .ok b → ∃ d, g b = .ok d) : Agree x (y >>= g) := by
  cases h with
  | ok a b =>
    obtain ⟨d, hd⟩ := hg b rfl
    rw [ok_bind, hd]
    exact .ok a d
  | error h => exact .error h

theorem agree_demand {p : Prop} [Decidable p] {x : Except CodecError α} {y : Except CodecError β}
    {e e' : CodecError} (h : p → Agree x y) (he : e.SameFault e') :
    Agree (if p then x else .error e) (if p then y else .error e') := by
  by_cases hp : p
  · rw [if_pos hp, if_pos hp]
    exact h hp
  · rw [if_neg hp, if_neg hp]
    exact .error he

theorem agree_items {check : Nat → α → Except CodecError Unit} {step : α → Except CodecError β}
    (h : ∀ i a, Agree (check i a) (step a)) (i : Nat) (items : List α) :
    Agree (checkItems check i items) (mapItems step items) := by
  induction items generalizing i with
  | nil => exact .ok () []
  | cons a items ih =>
    rw [checkItems, mapItems]
    refine agree_bind (h i a) fun _ b => agree_then (ih (i + 1)) fun bs _ => ?_
    exact ⟨b :: bs, rfl⟩

theorem Agree.ok_iff {x : Except CodecError Unit} {y : Except CodecError β} (h : Agree x y) :
    (∃ b, y = .ok b) ↔ x = .ok () := by
  cases h with
  | ok a b => exact ⟨fun _ => rfl, fun _ => ⟨b, rfl⟩⟩
  | error h =>
    constructor
    · rintro ⟨b, hb⟩
      cases hb
    · intro hx
      cases hx

theorem Agree.of_error {x : Except CodecError α} {y : Except CodecError β} (h : Agree x y)
    {e : CodecError} (he : x = .error e) : ∃ e', y = .error e' ∧ e.SameFault e' := by
  cases h with
  | ok a b => cases he
  | error h =>
    cases he
    exact ⟨_, rfl, h⟩

end Passes

namespace Kind

variable {α : Type} {nodes : Nodes α} {m depth : Nat}

theorem exists_merkleizeBytes (nodes : Nodes α) {b : Bytes} {max : Nat} (h : b.length ≤ max) :
    ∃ a, nodes.merkleizeBytes b max = .ok a := by
  refine ⟨_, Nodes.merkleize_eq_ok.2 ⟨?_, rfl⟩⟩
  rw [List.length_map, length_packChunks]
  exact chunkCount_mono h

theorem exists_merkleize (nodes : Nodes α) {level : List α} {limit : Nat}
    (h : level.length ≤ limit) : ∃ a, nodes.merkleize level limit = .ok a :=
  ⟨_, Nodes.merkleize_eq_ok.2 ⟨h, rfl⟩⟩

/-- The items of a sequence of integers are packed by a pass of their own. -/
theorem agree_packedItem (w : Nat) (place : Place) (v : Value) :
    Agree ((uint w).check place v) (packedItem w v) := by
  cases v with
  | uint u =>
    rw [check, packedItem]
    exact agree_demand (fun _ => .ok _ _) (.packedWidth place u w)
  | bytes b => exact .error (.packedShape place "bytes" w)
  | vector items => exact .error (.packedShape place "vector" w)
  | list items => exact .error (.packedShape place "list" w)
  | container values => exact .error (.packedShape place "container" w)

theorem agree_itemsRoot {item : Kind} (sound : item.Sound) {bound : Nat}
    (packed : ∀ w, item = .uint w → bound * w ≤ maxSize) {items : List Value}
    (length : items.length ≤ bound) {rootOf : Value → Except CodecError α}
    (h : ∀ place v, Agree (item.check place v) (rootOf v)) (place : Place) :
    Agree (checkItems (fun i v => item.check (place.item i) v) 0 items)
      (itemsRoot nodes item rootOf bound items) := by
  rcases item.uint_or_composite with ⟨w, rfl⟩ | hitem
  · have width : w ∈ uintWidths := by
      cases sound
      assumption
    refine agree_then (agree_items (fun i v => agree_packedItem w (place.item i) v) 0 items) ?_
    intro bs hbs
    -- the packed integers fit the room that their sequence leaves for them
    obtain ⟨hcount, hsize⟩ := length_of_packed (width_le width) hbs
    have hmin : Nat.min (bound * w) maxSize = bound * w := Nat.min_eq_left (packed w rfl)
    rw [hmin]
    apply exists_merkleizeBytes
    rw [Bytes.length_flatten hsize, hcount, Nat.mul_comm]
    exact Nat.mul_le_mul_right w length
  · rw [itemsRoot_of_composite hitem]
    refine agree_then (agree_items (fun i v => h (place.item i) v) 0 items) ?_
    intro roots hroots
    -- there is a root for each item, and so no more of them than the bound allows
    apply exists_merkleize
    rwa [← (mapItems_eq_ok.1 hroots).length_eq]

theorem agree_fields {owner : String} {fields : List (Field Kind)}
    (h : ∀ f ∈ fields, ∀ place v, Agree (f.kind.check place v) (f.kind.root nodes m depth v))
    (values : List Value) :
    Agree (checkFields owner fields values) (fieldRoots nodes m fields depth values) := by
  induction fields generalizing values with
  | nil => exact .ok () []
  | cons f fields ih =>
    obtain ⟨hf, hfields⟩ := List.forall_mem_cons.1 h
    cases values with
    | nil => exact .ok () []
    | cons v values =>
      rw [checkFields, fieldRoots]
      refine agree_bind (hf _ v) fun _ root => agree_then (ih hfields values) fun roots _ => ?_
      exact ⟨root :: roots, rfl⟩

/-- The fields of a container, and the root over theirs. -/
theorem agree_container {name : String} {fields : List (Field Kind)}
    (h : ∀ f ∈ fields, ∀ place v, Agree (f.kind.check place v) (f.kind.root nodes m depth v))
    (values : List Value) :
    Agree
      (if values.length = fields.length then checkFields name fields values
        else .error (.mismatch (.fieldCount name fields.length values.length)))
      (if values.length = fields.length then do
          let roots ← fieldRoots nodes m fields depth values
          nodes.merkleize roots roots.length
        else .error (.mismatch (.fieldCount name fields.length values.length))) := by
  refine agree_demand (fun _ => ?_) (.fieldCount name fields.length values.length)
  exact agree_then (agree_fields h values) fun roots _ => exists_merkleize nodes le_rfl

/-- **Checking and hashing agree**, if there are enough levels for the kind. -/
theorem check_agrees_root {k : Kind} (hk : k.Sound)
    (packed : ∀ k' ∈ k.within, k'.packedSize ≤ maxSize) (levels : depth + k.nesting ≤ m)
    (place : Place) (v : Value) : Agree (k.check place v) (k.root nodes m depth v) := by
  -- by induction on the kind: `levels` passes on to what is inside, so no level is refused, and
  -- values of another shape than their kind are refused by both without a further look
  induction hk generalizing depth place v with
  | bytes _ =>
    cases v with
    | bytes b =>
      rw [check, root]
      refine agree_demand (fun length => ?_) (.value place _)
      obtain ⟨a, ha⟩ := exists_merkleizeBytes nodes length.le
      rw [ha]
      exact .ok () a
    | _ => exact .error (.value place _)
  | uint _ =>
    cases v with
    | uint u =>
      rw [check, root]
      exact agree_demand (fun _ => .ok _ _) (.value place _)
    | _ => exact .error (.value place _)
  | byteList =>
    cases v with
    | bytes b =>
      rw [check, root]
      refine agree_demand (fun length => ?_) (.tooManyBytes _ _)
      obtain ⟨a, ha⟩ := exists_merkleizeBytes nodes length
      rw [ha, ok_bind]
      exact .ok () (nodes.mixInLength a b.length)
    | _ => exact .error (.value place _)
  | @vector item n _ sound ih =>
    cases v with
    | vector items =>
      obtain ⟨hsize, hitem⟩ := forall_within_vector.1 packed
      rw [nesting] at levels
      rw [check, root, checkLevel_eq, limited_of_le (by omega), ok_bind]
      refine agree_demand (fun length => ?_) (.value place _)
      exact agree_itemsRoot sound (mul_le_of_vector hsize) length.le
        (fun place v => ih hitem (by omega) place v) place
    | _ => exact .error (.value place _)
  | @list item max sound ih =>
    cases v with
    | list items =>
      obtain ⟨hsize, hitem⟩ := forall_within_list.1 packed
      rw [nesting] at levels
      rw [check, root, checkLevel_eq, limited_of_le (by omega), ok_bind]
      refine agree_demand (fun length => ?_) (.tooManyItems _ _)
      refine agree_then (agree_itemsRoot sound (mul_le_of_list hsize) length
        (fun place v => ih hitem (by omega) place v) place) fun root _ => ?_
      exact ⟨_, rfl⟩
    | _ => exact .error (.value place _)
  | @container name fields _ _ ih =>
    cases v with
    | container values =>
      obtain ⟨-, hfields⟩ := forall_within_container.1 packed
      rw [nesting] at levels
      rw [check, root, checkLevel_eq, limited_of_le (by omega), ok_bind]
      refine agree_container (fun f hf place v => ?_) values
      have hlevels := nesting_le_deepest hf
      exact ih f hf (hfields f hf) (by omega) place v
    | _ => exact .error (.value place _)

end Kind

namespace Schema

variable {s : Schema} {m : Nat}

/-- Checking and hashing agree on every record. -/
theorem check_agrees_root (valid : s.Valid) (levels : s.nesting ≤ m)
    (packed : ∀ k ∈ s.kind.within, k.packedSize ≤ maxSize) (r : Record) :
    Agree (s.check r) (s.root m r) := by
  have hvalid : s.validate = .ok () := valid
  obtain ⟨-, hsound⟩ := Kind.sound_container.1 (valid_iff.1 valid)
  obtain ⟨-, hpacked⟩ := Kind.forall_within_container.1 packed
  rw [check, root, rootOver, hvalid, ok_bind]
  refine Kind.agree_container (fun f hf place v => ?_) r
  have hlevels : 0 + f.kind.nesting ≤ m := by
    have := Kind.nesting_le_deepest hf
    rw [Schema.nesting] at levels
    omega
  exact Kind.check_agrees_root (hsound f hf) (hpacked f hf) hlevels place v

/-- Encoding refuses what checking refuses, with the same error. -/
theorem encode_of_check (valid : s.Valid) {r : Record} {e : CodecError}
    (h : s.check r = .error e) : s.encode r = .error e := by
  have hvalid : s.validate = .ok () := valid
  rw [encode, hvalid, ok_bind, h, error_bind]

/-- **Checking, encoding and hashing agree on which records are legal.**  A record that fits has a
root, and it is encoded as far as slots can point; one that does not fit is refused by all three for
the same fault, the first bound that it breaks being named with the same numbers. -/
theorem check_agrees (valid : s.Valid) (levels : s.nesting ≤ m)
    (packed : ∀ k ∈ s.kind.within, k.packedSize ≤ maxSize) (r : Record) :
    ((∃ a, s.root m r = .ok a) ↔ s.check r = .ok ()) ∧
    (∀ length max, s.check r = .error (.itemTooLarge length max) →
      s.root m r = .error (.limitExceeded length max)) ∧
    (∀ count max, s.check r = .error (.listTooLong count max) →
      s.root m r = .error (.limitExceeded count max)) ∧
    (∀ cause, s.check r = .error (.mismatch cause) →
      ∃ cause', s.root m r = .error (.mismatch cause')) ∧
    (∀ e, s.check r = .error e →
      s.encode r = .error e ∧ ∃ e', s.root m r = .error e' ∧ e.SameFault e') ∧
    (s.check r = .ok () → ∀ e, s.encode r = .error e →
      ∃ offset, Wire.maxOffset < offset ∧ e = .itemTooLarge offset Wire.maxOffset) := by
  have hagree := check_agrees_root valid levels packed r
  refine ⟨hagree.ok_iff, ?_, ?_, ?_, ?_, ?_⟩
  · intro length max h
    obtain ⟨e', he', hsame⟩ := hagree.of_error h
    cases hsame
    exact he'
  · intro count max h
    obtain ⟨e', he', hsame⟩ := hagree.of_error h
    cases hsame
    exact he'
  · intro cause h
    -- hashing tells less of the place, and calls an item of a packed sequence by its shape
    obtain ⟨e', he', hsame⟩ := hagree.of_error h
    cases hsame with
    | value => exact ⟨_, he'⟩
    | fieldCount => exact ⟨_, he'⟩
    | packedShape => exact ⟨_, he'⟩
    | packedWidth => exact ⟨_, he'⟩
  · intro e h
    exact ⟨encode_of_check valid h, hagree.of_error h⟩
  · intro h e he
    obtain ⟨-, -, offset, -, hmax, rfl⟩ := encode_overruns valid h e he
    exact ⟨offset, hmax, rfl⟩

theorem check_agrees_notes :
    let s : Schema := ⟨"Log", [⟨"marks", .vector (.uint 1) 2, .reject⟩,
      ⟨"notes", .list (.list (.byteList 2) 3) 4, .reject⟩, ⟨"size", .uint 1, .reject⟩]⟩
    let r : Record := [.vector [.uint (UInt256.ofNat 1), .uint (UInt256.ofNat 2)],
      .list [.list [], .list [.bytes [1], .bytes [1, 2, 3]]], .uint (UInt256.ofNat 256)]
    s.check r = .error (.itemTooLarge 3 2) ∧ s.encode r = .error (.itemTooLarge 3 2) ∧
      s.root 2 r = .error (.limitExceeded 3 2) := by
  intro s r
  have valid : s.Valid := by
    unfold s
    rfl
  have levels : s.nesting ≤ 2 := by
    unfold s
    decide
  have packed : ∀ k ∈ s.kind.within, k.packedSize ≤ maxSize := by
    unfold s
    decide
  have h : s.check r = .error (.itemTooLarge 3 2) := by
    unfold s r
    rfl
  obtain ⟨-, hbytes, -, -, hencode, -⟩ := check_agrees valid levels packed r
  exact ⟨h, (hencode _ h).1, hbytes 3 2 h⟩

end Schema

end SszRecord

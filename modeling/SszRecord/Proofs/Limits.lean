/-
The limit on nesting.

An operation whose limit is left open is a function from limits to answers.  `Settles n x` says
that a larger limit changes no answer of `x` but refusals for nesting, and that there are none of
these once `n` levels are allowed.  What holds of two steps holds of them in a row, so that it is
enough to look at the single steps of decoding and hashing:

* `settles_bind`, `settles_mapItems` : steps that follow one another;
* `Kind.decode_settles`, `Kind.root_settles` : what a kind needs is its own nesting;
* `Schema.verdict_of_le` : the same for records;
* `Schema.decode_eq_ok_iff`, `Schema.root_iff_nesting_le` : decoding and hashing need the levels of
  the record, no more and no fewer, and so they go together (`Schema.levels_agree`).
-/
import Mathlib
import SszRecord.Proofs.Merkle.Definition
import SszRecord.Proofs.Schema.Nesting
import SszRecord.Proofs.Wire.RoundTrip
import SszRecord.Proofs.Wire.Safety

namespace SszRecord

/-- Whether an error says something of the input, and not only that a limit is too small for it. -/
def CodecError.IsVerdict : CodecError → Prop
  | .nestingTooDeep _ => False
  | _ => True

theorem CodecError.isVerdict_iff {e : CodecError} :
    e.IsVerdict ↔ ∀ max, e ≠ .nestingTooDeep max := by
  cases e with
  | nestingTooDeep max =>
    constructor
    · intro h
      cases h
    · intro h
      exact h max rfl
  | _ => simp [IsVerdict]

/-- The answers of an operation, one for each limit, settle once there are `levels` of them. -/
structure Settles {α : Type} (levels : Nat) (x : Nat → Except CodecError α) : Prop where
  /-- Under a larger limit the answer is the same, unless levels were refused. -/
  raise : ∀ {m m' : Nat}, m ≤ m' → x m = .error (.nestingTooDeep m) ∨ x m' = x m
  /-- No levels are refused when there are enough of them. -/
  enough : ∀ {m : Nat}, levels ≤ m → FailsWith CodecError.IsVerdict (x m)

section Steps

variable {α β : Type} {levels levels' : Nat}

/-- What proves itself under every limit is no refusal under any. -/
theorem isVerdict_of_proves {x : Except CodecError α}
    (h : ∀ m, FailsWith (CodecError.Proves m) x) : FailsWith CodecError.IsVerdict x := by
  intro e he
  rw [CodecError.isVerdict_iff]
  rintro max rfl
  -- a refusal gives the limit away, and two limits cannot both be it
  have hlimit : max = max + 1 := h (max + 1) _ he
  omega

theorem settles_const {x : Except CodecError α} (h : FailsWith CodecError.IsVerdict x) :
    Settles levels fun _ => x :=
  ⟨fun _ => .inr rfl, fun _ => h⟩

theorem settles_ok (a : α) : Settles levels fun _ => .ok a := settles_const (failsWith_ok a)

theorem settles_error {e : CodecError} (h : e.IsVerdict) :
    Settles levels fun _ => (.error e : Except CodecError α) := settles_const (failsWith_error h)

theorem Settles.mono {x : Nat → Except CodecError α} (h : Settles levels x)
    (hle : levels ≤ levels') : Settles levels' x :=
  ⟨h.raise, fun hm => h.enough (hle.trans hm)⟩

theorem settles_ite {p : Prop} [Decidable p] {x y : Nat → Except CodecError α}
    (hx : p → Settles levels x) (hy : ¬p → Settles levels y) :
    Settles levels fun m => if p then x m else y m := by
  by_cases hp : p
  · simp only [if_pos hp]
    exact hx hp
  · simp only [if_neg hp]
    exact hy hp

theorem settles_bind {x : Nat → Except CodecError α} {f : Nat → α → Except CodecError β}
    (hx : Settles levels x) (hf : ∀ a, Settles levels fun m => f m a) :
    Settles levels fun m => x m >>= f m := by
  constructor
  · intro m m' hm
    rcases hx.raise hm with h | h
    · left
      rw [h, error_bind]
    · -- the first step has its answer for good, and the second one decides
      rw [h]
      cases x m with
      | error e => exact .inr rfl
      | ok a => exact (hf a).raise hm
  · intro m hm
    exact failsWith_bind (hx.enough hm) fun a _ => (hf a).enough hm

theorem settles_mapItems {f : Nat → α → Except CodecError β} {items : List α}
    (h : ∀ a ∈ items, Settles levels fun m => f m a) :
    Settles levels fun m => mapItems (f m) items := by
  induction items with
  | nil => exact settles_ok []
  | cons a items ih =>
    obtain ⟨ha, hitems⟩ := List.forall_mem_cons.1 h
    simp only [mapItems]
    refine settles_bind ha fun b => settles_bind (ih hitems) fun bs => ?_
    exact settles_ok (b :: bs)

theorem Settles.ok_of_le {x : Nat → Except CodecError α} (h : Settles levels x) {m m' : Nat}
    (hm : m ≤ m') {a : α} (ha : x m = .ok a) : x m' = .ok a := by
  rcases h.raise hm with hrefused | hsame
  · rw [ha] at hrefused
    cases hrefused
  · rw [hsame, ha]

theorem Settles.error_of_le {x : Nat → Except CodecError α} (h : Settles levels x) {m m' : Nat}
    (hm : m ≤ m') {e : CodecError} (he : x m = .error e)
    (hverdict : ∀ max, e ≠ .nestingTooDeep max) : x m' = .error e := by
  rcases h.raise hm with hrefused | hsame
  · rw [he, Except.error.injEq] at hrefused
    exact absurd hrefused (hverdict m)
  · rw [hsame, he]

theorem Settles.not_refused {x : Nat → Except CodecError α} (h : Settles levels x) {m : Nat}
    (hm : levels ≤ m) (max : Nat) : x m ≠ .error (.nestingTooDeep max) := by
  intro he
  exact h.enough hm _ he

/-- Entering a level is settled once the level is allowed. -/
theorem settles_limited (n : Nat) : Settles n fun m => limited m n () := by
  constructor
  · intro m m' hm
    by_cases hn : n ≤ m
    · right
      rw [limited_of_le hn, limited_of_le (hn.trans hm)]
    · left
      exact limited_of_lt (Nat.lt_of_not_le hn) ()
  · intro m hn
    rw [limited_of_le hn]
    exact failsWith_ok ()

/-- The members of a sequence or container lie one level below it. -/
theorem settles_enter {depth n : Nat} {x : Nat → Except CodecError α}
    (h : Settles (depth + 1 + n) x) :
    Settles (depth + (n + 1)) fun m => limited m (depth + 1) () >>= fun _ => x m := by
  have hlevels : depth + 1 + n = depth + (n + 1) := by omega
  rw [hlevels] at h
  exact settles_bind ((settles_limited (depth + 1)).mono (by omega)) fun _ => h

end Steps

namespace Kind

/-! ### Decoding -/

theorem decodeFields_settles {fields : List (Field Kind)} {depth levels : Nat}
    (h : ∀ f ∈ fields, ∀ data, Settles levels fun m => f.kind.decode m depth data)
    (regions : List Bytes) : Settles levels fun m => decodeFields m fields depth regions := by
  induction fields generalizing regions with
  | nil => exact settles_ok []
  | cons f fields ih =>
    obtain ⟨hf, hfields⟩ := List.forall_mem_cons.1 h
    cases regions with
    | nil => exact settles_ok []
    | cons region regions =>
      simp only [decodeFields]
      refine settles_bind (hf region) fun v => settles_bind (ih hfields regions) fun vs => ?_
      exact settles_ok (v :: vs)

theorem decodeItems_settles {item : Kind} {count : Wire.Count} {depth levels : Nat}
    (h : ∀ data, Settles levels fun m => item.decode m depth data) (wrap : List Value → Value)
    (data : Bytes) : Settles levels fun m => do
      let regions ← Wire.itemRegions item count data
      let items ← mapItems (fun r => item.decode m depth r) regions
      return wrap items := by
  refine settles_bind (settles_const (isVerdict_of_proves fun m => ?_)) fun regions => ?_
  · exact Wire.itemRegions_proves item count
  · refine settles_bind (settles_mapItems fun r _ => h r) fun items => ?_
    exact settles_ok (wrap items)

/-- **Decoding needs no more levels than the kind has.** -/
theorem decode_settles (k : Kind) (depth : Nat) (data : Bytes) :
    Settles (depth + k.nesting) fun m => k.decode m depth data := by
  -- by induction on the kind: the passes over a region never look at the limit, and what they cut
  -- out of it is decoded one level below
  induction k generalizing depth data with
  | bytes n =>
    simp only [decode]
    refine settles_bind (settles_const (isVerdict_of_proves fun m => ?_)) fun _ => ?_
    · exact Wire.exactLength_proves n
    · exact settles_ok _
  | uint w =>
    simp only [decode]
    refine settles_bind (settles_const (isVerdict_of_proves fun m => ?_)) fun _ => ?_
    · exact Wire.exactLength_proves w
    · -- a width that no schema may hold is refused as such, not for its level
      cases UInt256.ofBytes? data with
      | none => exact settles_error trivial
      | some u => exact settles_ok (Value.uint u)
  | byteList max =>
    simp only [decode]
    exact settles_const (failsWith_refuse (fun _ => trivial) fun _ => failsWith_ok _)
  | vector item n ih =>
    simp only [decode, checkDepth_eq]
    exact settles_enter (decodeItems_settles (fun data => ih (depth + 1) data) .vector data)
  | list item max ih =>
    simp only [decode, checkDepth_eq]
    exact settles_enter (decodeItems_settles (fun data => ih (depth + 1) data) .list data)
  | container name fields ih =>
    simp only [decode, checkDepth_eq]
    refine settles_enter ?_
    refine settles_bind (settles_const (isVerdict_of_proves fun m => ?_)) fun spans => ?_
    · exact Wire.containerSpans_proves fields
    · refine settles_bind (decodeFields_settles (fun f hf data => ?_) _) fun values => ?_
      · exact (ih f hf (depth + 1) data).mono (Nat.add_le_add_left (nesting_le_deepest hf) _)
      · exact settles_ok (Value.container values)

/-! ### Hashing -/

section Roots

variable {α : Type} {nodes : Nodes α}

theorem merkleize_isVerdict (level : List α) (limit : Nat) :
    FailsWith CodecError.IsVerdict (nodes.merkleize level limit) := by
  rw [Nodes.merkleize]
  exact failsWith_refuse (fun _ => trivial) fun _ => failsWith_ok _

theorem packedItem_isVerdict (w : Nat) (v : Value) :
    FailsWith CodecError.IsVerdict (packedItem w v) := by
  cases v with
  | uint u =>
    rw [packedItem]
    split
    · exact failsWith_ok _
    · exact failsWith_error trivial
  | _ => exact failsWith_error trivial

theorem fieldRoots_settles {fields : List (Field Kind)} {depth levels : Nat}
    (h : ∀ f ∈ fields, ∀ v, Settles levels fun m => f.kind.root nodes m depth v)
    (values : List Value) :
    Settles levels fun m => fieldRoots nodes m fields depth values >>= fun roots =>
      nodes.merkleize roots roots.length := by
  simp only [fieldRoots_eq]
  refine settles_bind (settles_mapItems fun p hp => ?_) fun roots => ?_
  · exact h p.1 (List.of_mem_zip hp).1 p.2
  · exact settles_const (merkleize_isVerdict roots roots.length)

theorem itemsRoot_settles {item : Kind} {depth levels : Nat}
    (h : ∀ v, Settles levels fun m => item.root nodes m depth v) (bound : Nat)
    (items : List Value) :
    Settles levels fun m =>
      itemsRoot nodes item (fun v => item.root nodes m depth v) bound items := by
  rcases item.uint_or_composite with ⟨w, rfl⟩ | hitem
  · -- packed integers are hashed without any look at the limit
    refine settles_const (failsWith_bind (failsWith_mapItems fun v _ => ?_) fun packed _ => ?_)
    · exact packedItem_isVerdict w v
    · exact merkleize_isVerdict _ _
  · simp only [itemsRoot_of_composite hitem]
    refine settles_bind (settles_mapItems fun v _ => h v) fun roots => ?_
    exact settles_const (merkleize_isVerdict roots bound)

/-- **Hashing needs no more levels than the kind has.** -/
theorem root_settles (k : Kind) (depth : Nat) (v : Value) :
    Settles (depth + k.nesting) fun m => k.root nodes m depth v := by
  induction k generalizing depth v with
  | bytes n =>
    cases v with
    | bytes b =>
      simp only [root]
      exact settles_ite (fun _ => settles_const (merkleize_isVerdict _ _)) fun _ =>
        settles_error trivial
    | _ => exact settles_error trivial
  | uint w =>
    cases v with
    | uint u =>
      simp only [root]
      exact settles_ite (fun _ => settles_ok _) fun _ => settles_error trivial
    | _ => exact settles_error trivial
  | byteList max =>
    cases v with
    | bytes b =>
      simp only [root]
      refine settles_ite (fun _ => ?_) fun _ => settles_error trivial
      refine settles_bind (settles_const (merkleize_isVerdict _ _)) fun a => ?_
      exact settles_ok _
    | _ => exact settles_error trivial
  | vector item n ih =>
    cases v with
    | vector items =>
      simp only [root, checkLevel_eq]
      refine settles_ite (fun _ => settles_enter ?_) fun _ => settles_error trivial
      exact itemsRoot_settles (fun v => ih (depth + 1) v) n items
    | _ => exact settles_error trivial
  | list item max ih =>
    cases v with
    | list items =>
      simp only [root, checkLevel_eq]
      refine settles_ite (fun _ => settles_enter ?_) fun _ => settles_error trivial
      refine settles_bind (itemsRoot_settles (fun v => ih (depth + 1) v) max items) fun a => ?_
      exact settles_ok _
    | _ => exact settles_error trivial
  | container name fields ih =>
    cases v with
    | container values =>
      simp only [root, checkLevel_eq]
      refine settles_enter (settles_ite (fun _ => ?_) fun _ => settles_error trivial)
      refine fieldRoots_settles (fun f hf v => ?_) values
      exact (ih f hf (depth + 1) v).mono (Nat.add_le_add_left (nesting_le_deepest hf) _)
    | _ => exact settles_error trivial

end Roots

/-! ### Validating -/

theorem validateFields_isVerdict {owner : String} {fields : List (Field Kind)}
    (h : ∀ f ∈ fields, ∀ place, FailsWith CodecError.IsVerdict (f.kind.validate place)) :
    FailsWith CodecError.IsVerdict (validateFields owner fields) := by
  induction fields with
  | nil => exact failsWith_ok ()
  | cons f fields ih =>
    obtain ⟨hf, hfields⟩ := List.forall_mem_cons.1 h
    rw [validateFields]
    exact failsWith_bind (hf _) fun _ _ => ih hfields

/-- Schemas are refused for what they are, whatever limit they are meant for. -/
theorem validate_isVerdict (k : Kind) (place : Place) :
    FailsWith CodecError.IsVerdict (k.validate place) := by
  induction k generalizing place with
  | bytes n =>
    rw [validate]
    exact failsWith_refuse (fun _ => trivial) fun _ => failsWith_ok ()
  | uint w =>
    rw [validate]
    split
    · exact failsWith_ok ()
    · exact failsWith_error trivial
  | byteList max => exact failsWith_ok ()
  | vector item n ih =>
    rw [validate]
    exact failsWith_refuse (fun _ => trivial) fun _ => ih place
  | list item max ih =>
    rw [validate]
    exact ih place
  | container name fields ih =>
    rw [validate]
    exact failsWith_refuse (fun _ => trivial) fun _ => validateFields_isVerdict ih

end Kind

namespace Schema

/-! ### Records -/

theorem validate_settles (s : Schema) (levels : Nat) : Settles levels fun _ => s.validate :=
  settles_const (Kind.validate_isVerdict s.kind ⟨s.name, "", []⟩)

theorem decode_settles (s : Schema) (data : Bytes) :
    Settles s.nesting fun m => s.decode m data := by
  simp only [decode]
  refine settles_bind (s.validate_settles _) fun _ => ?_
  refine settles_bind (settles_const (isVerdict_of_proves fun m => ?_)) fun spans => ?_
  · exact Wire.containerSpans_proves s.fields
  · refine Kind.decodeFields_settles (fun f hf region => ?_) _
    have hf' := Kind.decode_settles f.kind 0 region
    rw [Nat.zero_add] at hf'
    exact hf'.mono (Kind.nesting_le_deepest hf)

theorem root_settles (s : Schema) (r : Record) : Settles s.nesting fun m => s.root m r := by
  simp only [root, rootOver]
  refine settles_bind (s.validate_settles _) fun _ => ?_
  refine settles_ite (fun _ => ?_) fun _ => settles_error trivial
  -- the fields of a record are at level zero, so nothing is added to the nesting of their kinds
  refine Kind.fieldRoots_settles (fun f hf v => ?_) r
  have hf' : Settles (0 + f.kind.nesting) fun m => f.kind.root sha256Nodes m 0 v :=
    Kind.root_settles f.kind 0 v
  rw [Nat.zero_add] at hf'
  exact hf'.mono (Kind.nesting_le_deepest hf)

/-- **Raising the limit changes no verdict.**  What is decoded or hashed under a limit is decoded or
hashed as the same under a larger one, and what is refused for anything but its levels is refused
with the same error.  A limit that leaves room for the schema refuses no levels at all. -/
theorem verdict_of_le {s : Schema} {m m' : Nat} (h : m ≤ m') (data : Bytes) (r : Record) :
    ((∀ r', s.decode m data = .ok r' → s.decode m' data = .ok r') ∧
      ∀ e, s.decode m data = .error e → (∀ max, e ≠ .nestingTooDeep max) →
        s.decode m' data = .error e) ∧
    ((∀ a, s.root m r = .ok a → s.root m' r = .ok a) ∧
      ∀ e, s.root m r = .error e → (∀ max, e ≠ .nestingTooDeep max) →
        s.root m' r = .error e) ∧
    (s.nesting ≤ m → ∀ max, s.decode m data ≠ .error (.nestingTooDeep max) ∧
      s.root m r ≠ .error (.nestingTooDeep max)) := by
  have hdecode := s.decode_settles data
  have hroot := s.root_settles r
  refine ⟨⟨?_, ?_⟩, ⟨?_, ?_⟩, ?_⟩
  · intro r' hr'
    exact hdecode.ok_of_le h hr'
  · intro e he hverdict
    exact hdecode.error_of_le h he hverdict
  · intro a ha
    exact hroot.ok_of_le h ha
  · intro e he hverdict
    exact hroot.error_of_le h he hverdict
  · intro hm max
    exact ⟨hdecode.not_refused hm max, hroot.not_refused hm max⟩

theorem verdict_of_le_lists :
    let s : Schema := ⟨"Log", [⟨"notes", .list (.byteList 2) 3, .reject⟩,
      ⟨"pages", .list (.list (.byteList 2) 3) 2, .reject⟩]⟩
    let data : Bytes := [8, 0, 0, 0, 16, 0, 0, 0, 8, 0, 0, 0, 9, 0, 0, 0]
    let r : Record := [.list [.bytes [1, 2, 3]], .list [.list []]]
    s.decode 1 data = .error (.badOffset 9 8 8) ∧ s.decode 7 data = .error (.badOffset 9 8 8) ∧
      s.root 1 r = .error (.limitExceeded 3 2) ∧ s.root 7 r = .error (.limitExceeded 3 2) := by
  intro s data r
  have hdecode : s.decode 1 data = .error (.badOffset 9 8 8) := by
    unfold s data
    rfl
  have hroot : s.root 1 r = .error (.limitExceeded 3 2) := by
    unfold s r
    rfl
  have h : 1 ≤ 7 := by decide
  obtain ⟨⟨-, hdecode'⟩, ⟨-, hroot'⟩, -⟩ := verdict_of_le (s := s) h data r
  refine ⟨hdecode, hdecode' _ hdecode ?_, hroot, hroot' _ hroot ?_⟩
  · intro max hmax
    cases hmax
  · intro max hmax
    cases hmax

/-! ### The levels that a record needs -/

/-- **A record is decoded from its encoding and from nothing else**, and only if its levels are
within the limit. -/
theorem decode_eq_ok_iff {s : Schema} {m : Nat} {data : Bytes} {r : Record} :
    s.decode m data = .ok r ↔ s.encode r = .ok data ∧ Record.nesting r ≤ m := by
  constructor
  · intro h
    obtain ⟨hholds, hplaced, rfl⟩ := layout_of_decode h
    -- a second run over the same bytes tells what the first one needed
    have hlimited := decode_layout hholds hplaced m
    rw [layout, h, eq_comm, limited_eq_ok] at hlimited
    exact ⟨encode_eq_ok.2 ⟨holds_iff.1 hholds, hplaced, rfl⟩, hlimited.1⟩
  · rintro ⟨h, hm⟩
    obtain ⟨hr, hplaced, rfl⟩ := encode_eq_ok.1 h
    rw [decode_layout (holds_iff.2 hr) hplaced, limited_of_le hm]

/-- A record that fits is hashed exactly if its levels are within the limit. -/
theorem root_iff_nesting_le {s : Schema} {m : Nat} {r : Record} (valid : s.Valid)
    (conforms : s.Conforms r) (packed : ∀ k ∈ s.kind.within, k.packedSize ≤ maxSize) :
    (∃ a, s.root m r = .ok a) ↔ Record.nesting r ≤ m := by
  simp only [root, sha256Nodes_eq, rootOver_eq valid conforms packed, limited_eq_ok]
  constructor
  · rintro ⟨a, hm, -⟩
    exact hm
  · intro hm
    exact ⟨_, hm, rfl⟩

/-- **Decoding and hashing count levels alike.**  Whatever is decoded under a limit has a root under
the same limit, and whatever has a root and an encoding is decoded from it. -/
theorem levels_agree {s : Schema} {m : Nat} (valid : s.Valid)
    (packed : ∀ k ∈ s.kind.within, k.packedSize ≤ maxSize) :
    (∀ data r, s.decode m data = .ok r → ∃ a, s.root m r = .ok a) ∧
    ∀ r data, (∃ a, s.root m r = .ok a) → s.encode r = .ok data → s.decode m data = .ok r := by
  constructor
  · intro data r h
    obtain ⟨hencode, hm⟩ := decode_eq_ok_iff.1 h
    obtain ⟨⟨-, conforms⟩, -⟩ := encode_eq_ok.1 hencode
    exact (root_iff_nesting_le valid conforms packed).2 hm
  · intro r data hroot hencode
    obtain ⟨⟨-, conforms⟩, -⟩ := encode_eq_ok.1 hencode
    exact decode_eq_ok_iff.2 ⟨hencode, (root_iff_nesting_le valid conforms packed).1 hroot⟩

end Schema

end SszRecord

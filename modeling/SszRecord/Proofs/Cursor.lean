/-
Reads keep their place.

Reads are made of one another and fail at different points, but always behind the one step that
takes a value off the cursor.  `InPlace` says what this is worth: a read answers for the value that
stands next and for nothing else, names the field of this value where it fails, and moves on by one
field in any case.  `Stays` says what may follow the step that takes the value.

* `FieldRead.InPlace.bind` : a read in place, with something behind it that stays, is in place;
* `FieldRead.inPlace_bytes` and so on : all reads are in place;
* `Cursor.cursor_readAll`, `Cursor.getElem?_answers` : where a run of reads has come to, and what it
  has answered;
* `Cursor.answers_in_place` : each of them answers as if it were the first one.
-/
import Mathlib
import SszRecord.Proofs.Items
import SszRecord.Value.Cursor

namespace SszRecord

/-! ### Errors that name a field -/

namespace Mismatch

/-- The same cause for another field. -/
def atField (k : Nat) : Mismatch → Mismatch
  | .noField _ => .noField k
  | .fieldShape _ shape expected => .fieldShape k shape expected
  | .fieldBytes _ found expected => .fieldBytes k found expected
  | .fieldTooWide _ => .fieldTooWide k
  | cause => cause

/-- Causes that differ in the index only, in what they say too. -/
structure Indexed (cause : Nat → Mismatch) : Prop where
  atField : ∀ i k, (cause i).atField k = cause k
  message : ∃ before after, ∀ k, (cause k).message = before ++ "field " ++ toString k ++ after

theorem indexed_noField : Indexed .noField where
  atField _ _ := rfl
  message := by
    refine ⟨"record has no ", "", fun k => ?_⟩
    show "record has no field " ++ toString k = _
    rw [String.append_empty]
    rfl

theorem indexed_fieldShape (shape expected : String) :
    Indexed fun i => .fieldShape i shape expected where
  atField _ _ := rfl
  message := by
    refine ⟨"", " holds " ++ shape ++ ", expected " ++ expected, fun k => ?_⟩
    show "field " ++ toString k ++ " holds " ++ shape ++ ", expected " ++ expected = _
    simp only [String.empty_append, String.append_assoc]

theorem indexed_fieldBytes (found expected : Nat) :
    Indexed fun i => .fieldBytes i found expected where
  atField _ _ := rfl
  message := by
    refine ⟨"", " holds " ++ toString found ++ " bytes, expected " ++ toString expected,
      fun k => ?_⟩
    show "field " ++ toString k ++ " holds " ++ toString found ++ " bytes, expected " ++
      toString expected = _
    simp only [String.empty_append, String.append_assoc]

theorem indexed_fieldTooWide : Indexed .fieldTooWide where
  atField _ _ := rfl
  message := ⟨"", " does not fit in u64", fun _ => rfl⟩

end Mismatch

namespace CodecError

/-- The same error for another field. -/
def atField (k : Nat) : CodecError → CodecError
  | .mismatch cause => .mismatch (cause.atField k)
  | e => e

/-- The text of an error names a field by its index, and would be the same for another field but
for the index. -/
def NamesField (i : Nat) (e : CodecError) : Prop :=
  e.atField i = e ∧
    ∃ before after, ∀ k, (e.atField k).message = before ++ "field " ++ toString k ++ after

theorem namesField_of_indexed {cause : Nat → Mismatch} (h : Mismatch.Indexed cause) (i : Nat) :
    NamesField i (.mismatch (cause i)) := by
  obtain ⟨before, after, hmessage⟩ := h.message
  refine ⟨congrArg _ (h.atField i i), "record does not match schema: " ++ before, after,
    fun k => ?_⟩
  show "record does not match schema: " ++ ((cause i).atField k).message = _
  rw [h.atField, hmessage]
  simp only [String.append_assoc]

end CodecError

open CodecError

namespace FieldRead

variable {α β : Type} {x : FieldRead α} {f : α → FieldRead β}

/-- A read of one field: it answers for the value that stands next and for nothing else, names the
field of this value where it fails, and moves on by one field in any case. -/
structure InPlace (x : FieldRead α) : Prop where
  runAt_cons : ∀ v rest rest' i,
    x.runAt ⟨v :: rest, i⟩ = ((x.run (v :: rest')).mapError (atField i), ⟨rest, i + 1⟩)
  runAt_nil : ∀ i, x.runAt ⟨[], i⟩ = (.error (.mismatch (.noField i)), ⟨[], i + 1⟩)
  names : ∀ r, FailsWith (NamesField 0) (x.run r)

/-- What follows the step that takes a value: it looks at nothing but the index of this value, and
does not move. -/
structure Stays (x : FieldRead α) : Prop where
  runAt_eq : ∀ rest i,
    x.runAt ⟨rest, i + 1⟩ = ((x.runAt ⟨[], 1⟩).1.mapError (atField i), ⟨rest, i + 1⟩)
  names : FailsWith (NamesField 0) (x.runAt ⟨[], 1⟩).1

theorem stays_pure (a : α) : Stays (pure a : FieldRead α) where
  runAt_eq _ _ := rfl
  names := failsWith_ok a

theorem stays_refuse {cause : Nat → Mismatch} (h : Mismatch.Indexed cause) :
    Stays (refuse cause : FieldRead α) where
  runAt_eq rest i := by
    simp only [runAt_refuse, Nat.add_sub_cancel, Except.mapError, CodecError.atField, h.atField]
  names := failsWith_error (namesField_of_indexed h 0)

theorem stays_unexpected (found : Value) (expected : String) :
    Stays (unexpected found expected : FieldRead α) :=
  stays_refuse (Mismatch.indexed_fieldShape _ _)

/-- An answer that names a field already is not changed by naming it. -/
theorem mapError_of_names {answer : Except CodecError α} {i : Nat}
    (h : FailsWith (NamesField i) answer) : answer.mapError (atField i) = answer := by
  cases answer with
  | ok a => rfl
  | error e => exact congrArg Except.error (h e rfl).1

theorem InPlace.runAt_zero (hx : InPlace x) (v : Value) (rest : List Value) :
    x.runAt ⟨v :: rest, 0⟩ = (x.run (v :: rest), ⟨rest, 1⟩) := by
  rw [hx.runAt_cons v rest rest 0, mapError_of_names (hx.names _)]

theorem Stays.runAt_one (hx : Stays x) (rest : List Value) :
    x.runAt ⟨rest, 1⟩ = ((x.runAt ⟨[], 1⟩).1, ⟨rest, 1⟩) := by
  rw [hx.runAt_eq rest 0, mapError_of_names hx.names]

/-- What follows a read in place is answered as if nothing were left. -/
theorem InPlace.run_bind (hx : InPlace x) (hf : ∀ a, Stays (f a)) (v : Value)
    (rest : List Value) :
    (x >>= f).run (v :: rest) = x.run (v :: rest) >>= fun a => ((f a).runAt ⟨[], 1⟩).1 := by
  have hfirst := hx.runAt_zero v rest
  cases h : x.run (v :: rest) with
  | error e =>
    rw [h] at hfirst
    rw [run, Cursor.ofRecord, runAt_bind_of_error hfirst, error_bind]
  | ok a =>
    rw [h] at hfirst
    rw [run, Cursor.ofRecord, runAt_bind_of_ok hfirst, (hf a).runAt_one, ok_bind]

/-- **A read in place, with something behind it that stays, is in place.** -/
theorem InPlace.bind (hx : InPlace x) (hf : ∀ a, Stays (f a)) : InPlace (x >>= f) where
  runAt_cons v rest rest' i := by
    have hi := hx.runAt_cons v rest rest' i
    -- both sides fail in `x`, or go on with the same `a` behind the first value
    rw [hx.run_bind hf]
    cases h : x.run (v :: rest') with
    | error e =>
      rw [h] at hi
      rw [runAt_bind_of_error hi, error_bind]
      rfl
    | ok a =>
      rw [h] at hi
      rw [runAt_bind_of_ok hi, (hf a).runAt_eq, ok_bind]
  runAt_nil i := runAt_bind_of_error (hx.runAt_nil i)
  names r := by
    cases r with
    | nil =>
      rw [run, Cursor.ofRecord, runAt_bind_of_error (hx.runAt_nil 0)]
      exact failsWith_error (namesField_of_indexed Mismatch.indexed_noField 0)
    | cons v rest =>
      rw [hx.run_bind hf]
      exact failsWith_bind (hx.names _) fun a _ => (hf a).names

theorem inPlace_value : InPlace value where
  runAt_cons v rest rest' i := by
    rw [runAt_value_cons, run, Cursor.ofRecord, runAt_value_cons]
    rfl
  runAt_nil := runAt_value_nil
  names r := by
    cases r with
    | nil => exact failsWith_error (namesField_of_indexed Mismatch.indexed_noField 0)
    | cons v rest => exact failsWith_ok v

/-! ### The reads -/

theorem inPlace_bytes : InPlace bytes := by
  refine inPlace_value.bind fun v => ?_
  cases v with
  | bytes b => exact stays_pure b
  | _ => exact stays_unexpected _ _

theorem inPlace_uint : InPlace uint := by
  refine inPlace_value.bind fun v => ?_
  cases v with
  | uint u => exact stays_pure u
  | _ => exact stays_unexpected _ _

theorem inPlace_items : InPlace items := by
  refine inPlace_value.bind fun v => ?_
  cases v with
  | vector items => exact stays_pure items
  | list items => exact stays_pure items
  | _ => exact stays_unexpected _ _

theorem inPlace_record : InPlace record := by
  refine inPlace_value.bind fun v => ?_
  cases v with
  | container values => exact stays_pure values
  | _ => exact stays_unexpected _ _

theorem inPlace_vector (n : Nat) : InPlace (vector n) := by
  refine inPlace_bytes.bind fun b => ?_
  cases ByteVector.ofBytes? n b with
  | some v => exact stays_pure v
  | none => exact stays_refuse (Mismatch.indexed_fieldBytes _ _)

theorem inPlace_word : InPlace word := by
  refine inPlace_uint.bind fun u => ?_
  cases u.toWord? with
  | some w => exact stays_pure w
  | none => exact stays_refuse Mismatch.indexed_fieldTooWide

end FieldRead

namespace Cursor

open FieldRead

theorem inPlace_read (request : Request) : InPlace request.read := by
  cases request with
  | bytes => exact inPlace_bytes.bind fun _ => stays_pure _
  | vector n => exact (inPlace_vector n).bind fun _ => stays_pure _
  | uint => exact inPlace_uint.bind fun _ => stays_pure _
  | word => exact inPlace_word.bind fun _ => stays_pure _
  | items => exact inPlace_items.bind fun _ => stays_pure _
  | record => exact inPlace_record.bind fun _ => stays_pure _

/-! ### Runs -/

/-- **A step**: every request moves the cursor on by one field, whether it fails or not. -/
theorem cursor_runAt (request : Request) (c : Cursor) :
    (request.read.runAt c).2 = ⟨c.rest.tail, c.index + 1⟩ := by
  obtain ⟨rest, i⟩ := c
  cases rest with
  | nil => rw [(inPlace_read request).runAt_nil]; rfl
  | cons v rest => rw [(inPlace_read request).runAt_cons v rest rest]; rfl

theorem readAll_cons (request : Request) (requests : List Request) (c : Cursor) :
    (readAll (request :: requests)).run c =
      ((request.read.runAt c).1 :: answers ⟨c.rest.tail, c.index + 1⟩ requests,
        ((readAll requests).run ⟨c.rest.tail, c.index + 1⟩).2) := by
  rw [← cursor_runAt request c]
  rfl

/-- **A run**: the cursor has moved on by as many fields as there were requests. -/
theorem cursor_readAll (requests : List Request) (c : Cursor) :
    ((readAll requests).run c).2 = ⟨c.rest.drop requests.length, c.index + requests.length⟩ := by
  -- a request that fails moves the cursor too, so the step does not ask how it is answered
  induction requests generalizing c with
  | nil => rfl
  | cons request requests ih =>
    rw [readAll_cons, ih, List.drop_tail, List.length_cons, Nat.add_right_comm, Nat.add_assoc]

/-- Every request has been answered where as many requests as were in front of it leave the
cursor. -/
theorem getElem?_answers (requests : List Request) (c : Cursor) (k : Nat) :
    (answers c requests)[k]? =
      requests[k]?.map fun request => (request.read.runAt ⟨c.rest.drop k, c.index + k⟩).1 := by
  induction requests generalizing c k with
  | nil => rfl
  | cons request requests ih =>
    rw [answers, readAll_cons]
    cases k with
    | zero => rfl
    | succ k =>
      rw [List.getElem?_cons_succ, List.getElem?_cons_succ, ih, List.drop_tail, Nat.add_right_comm,
        Nat.add_assoc]

theorem length_answers (requests : List Request) (c : Cursor) :
    (answers c requests).length = requests.length := by
  induction requests generalizing c with
  | nil => rfl
  | cons request requests ih => rw [answers, readAll_cons, List.length_cons, ih, List.length_cons]

/-- **Reads keep their place.**  Whatever reads are made on a record, and whether they fail or not,
they leave the cursor as many fields further as there are reads.  The `k`-th of them answers what
the same read answers as the first one of any record that begins with the `k`-th value, except that
an error names field `k` instead of field 0, in the index that its text gives and in nothing else;
and if there is no `k`-th value, it says that the record has no field `k`. -/
theorem answers_in_place (r : Record) (requests : List Request) :
    ((readAll requests).run (ofRecord r)).2 = ⟨r.drop requests.length, requests.length⟩ ∧
      (answers (ofRecord r) requests).length = requests.length ∧
      ∀ k (hk : k < requests.length),
        (∀ v rest, r[k]? = some v →
          (answers (ofRecord r) requests)[k]? =
              some ((requests[k].read.run (v :: rest)).mapError (CodecError.atField k)) ∧
            FailsWith (NamesField 0) (requests[k].read.run (v :: rest))) ∧
        (r.length ≤ k → (answers (ofRecord r) requests)[k]? =
            some (.error (.mismatch (.noField k))) ∧
          (CodecError.mismatch (.noField k)).message =
            "record does not match schema: record has no field " ++ toString k) := by
  refine ⟨?_, length_answers _ _, fun k hk => ?_⟩
  · rw [cursor_readAll, ofRecord, Nat.zero_add]
  · have inPlace := inPlace_read requests[k]
    rw [getElem?_answers, List.getElem?_eq_getElem hk, Option.map_some, ofRecord, Nat.zero_add]
    constructor
    · intro v rest hv
      obtain ⟨hlt, rfl⟩ := List.getElem?_eq_some_iff.1 hv
      rw [List.drop_eq_getElem_cons hlt, inPlace.runAt_cons _ _ rest]
      exact ⟨rfl, inPlace.names _⟩
    · intro hle
      rw [List.drop_eq_nil_of_le hle, inPlace.runAt_nil]
      exact ⟨rfl, rfl⟩

/-- Four reads fail in four ways, and the fifth one still finds its field. -/
theorem answers_in_place_mixed :
    let r : Record := [.uint (UInt256.ofNat 300), .bytes [1, 2], .uint (UInt256.ofNat (2 ^ 64)),
      .list [], .bytes [7]]
    let requests : List Request := [.bytes, .vector 4, .word, .record, .vector 1, .items]
    r[2]? = some (Value.uint (UInt256.ofNat (2 ^ 64))) ∧ r.length ≤ 5 ∧
      (answers (ofRecord r) requests)[2]? =
        some (Except.error (CodecError.mismatch (Mismatch.fieldTooWide 2))) ∧
      (answers (ofRecord r) requests)[4]? = some (Except.ok (Answer.bytes [7])) ∧
      (answers (ofRecord r) requests)[5]? =
        some (Except.error (CodecError.mismatch (Mismatch.noField 5))) := by
  intro r requests
  obtain ⟨-, -, each⟩ := answers_in_place r requests
  have hvalue : r[2]? = some (.uint (UInt256.ofNat (2 ^ 64))) := rfl
  have hlast : r[4]? = some (.bytes [7]) := rfl
  have hend : r.length ≤ 5 := by decide
  refine ⟨hvalue, hend, ?_, ?_, ?_⟩
  · rw [((each 2 (by decide)).1 _ [] hvalue).1]
    rfl
  · rw [((each 4 (by decide)).1 _ [] hlast).1]
    rfl
  · exact ((each 5 (by decide)).2 hend).1

end Cursor

end SszRecord

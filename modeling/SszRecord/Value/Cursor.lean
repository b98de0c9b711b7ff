/-
Reading a record field by field.

A cursor holds the values not read yet and the index of the next one.  A read takes a value off the
cursor before anything can go wrong with it, so a read that fails has moved the cursor too.  By then
the index is that of the next field, and the field at fault is the one in front of it.
-/
import SszRecord.Error

namespace SszRecord

/-- The unread values of a record and the index of the first of them. -/
structure Cursor where
  rest : List Value
  index : Nat := 0

/-- The cursor before the first field of a record. -/
def Cursor.ofRecord (r : Record) : Cursor := ⟨r, 0⟩

/-- A read of fields.  A failure ends the read and leaves the cursor where it has come to. -/
abbrev FieldRead (α : Type) := ExceptT CodecError (StateM Cursor) α

namespace FieldRead

/-- Takes the next value. -/
def value : FieldRead Value := do
  let c ← get
  set (Cursor.mk c.rest.tail (c.index + 1))
  match c.rest with
  | v :: _ => return v
  | [] => throw (.mismatch (.noField c.index))

/-- Fails for the field taken last; the cause names it by its index. -/
def refuse {α : Type} (cause : Nat → Mismatch) : FieldRead α := do
  let c ← get
  throw (.mismatch (cause (c.index - 1)))

/-- Refuses a value of another shape than the one wanted. -/
def unexpected {α : Type} (found : Value) (expected : String) : FieldRead α :=
  refuse fun i => .fieldShape i found.shape expected

/-- The next value as bytes. -/
def bytes : FieldRead Bytes := do
  match ← value with
  | .bytes b => return b
  | other => unexpected other "bytes"

/-- The next value as exactly `n` bytes. -/
def vector (n : Nat) : FieldRead (ByteVector n) := do
  let b ← bytes
  match ByteVector.ofBytes? n b with
  | some v => return v
  | none => refuse fun i => .fieldBytes i b.length n

/-- The next value as an integer. -/
def uint : FieldRead UInt256 := do
  match ← value with
  | .uint u => return u
  | other => unexpected other "uint"

/-- The next value as an integer of one word. -/
def word : FieldRead UInt64 := do
  let u ← uint
  match u.toWord? with
  | some w => return w
  | none => refuse .fieldTooWide

/-- The items of the next value, a vector or a list. -/
def items : FieldRead (List Value) := do
  match ← value with
  | .vector items => return items
  | .list items => return items
  | other => unexpected other "list"

/-- The next value as a record. -/
def record : FieldRead Record := do
  match ← value with
  | .container values => return values
  | other => unexpected other "container"

/-- What a read answers at a cursor, and the cursor behind it. -/
def runAt {α : Type} (read : FieldRead α) (c : Cursor) : Except CodecError α × Cursor := read c

/-- Reads a record from its first field on; fields left over are ignored. -/
def run {α : Type} (read : FieldRead α) (r : Record) : Except CodecError α :=
  (runAt read (Cursor.ofRecord r)).1

section Running

variable {α β : Type} {x : FieldRead α} {f : α → FieldRead β} {c c' : Cursor}

@[simp] theorem runAt_pure (a : α) (c : Cursor) : runAt (pure a) c = (.ok a, c) := rfl

@[simp] theorem runAt_lift (answer : Except CodecError α) (c : Cursor) :
    runAt (monadLift answer) c = (answer, c) := rfl

/-- A read goes on where the one in front of it has left the cursor. -/
theorem runAt_bind_of_ok {a : α} (h : runAt x c = (.ok a, c')) :
    runAt (x >>= f) c = runAt (f a) c' := by
  rw [runAt] at h
  simp only [runAt, bind, ExceptT.bind, ExceptT.mk, StateT.bind, h, ExceptT.bindCont]

/-- A read that has failed goes no further. -/
theorem runAt_bind_of_error {e : CodecError} (h : runAt x c = (.error e, c')) :
    runAt (x >>= f) c = (.error e, c') := by
  rw [runAt] at h
  simp only [runAt, bind, ExceptT.bind, ExceptT.mk, StateT.bind, h, ExceptT.bindCont]
  rfl

@[simp] theorem runAt_value_cons (v : Value) (rest : List Value) (i : Nat) :
    runAt value ⟨v :: rest, i⟩ = (.ok v, ⟨rest, i + 1⟩) := rfl

@[simp] theorem runAt_value_nil (i : Nat) :
    runAt value ⟨[], i⟩ = (.error (.mismatch (.noField i)), ⟨[], i + 1⟩) := rfl

@[simp] theorem runAt_refuse (cause : Nat → Mismatch) (c : Cursor) :
    runAt (refuse cause : FieldRead α) c = (.error (.mismatch (cause (c.index - 1))), c) := rfl

end Running

end FieldRead

namespace Cursor

/-- A request for the next field of a record. -/
inductive Request where
  | bytes
  | vector (n : Nat)
  | uint
  | word
  | items
  | record
deriving DecidableEq, Repr

/-- What a request answers. -/
inductive Answer where
  | bytes (b : Bytes)
  | uint (u : UInt256)
  | items (items : List Value)
  | record (r : Record)

/-- The read that a request asks for. -/
def Request.read : Request → FieldRead Answer
  | .bytes => return .bytes (← FieldRead.bytes)
  | .vector n => return .bytes (← FieldRead.vector n).bytes
  | .uint => return .uint (← FieldRead.uint)
  | .word => return .uint (UInt256.ofWord (← FieldRead.word))
  | .items => return .items (← FieldRead.items)
  | .record => return .record (← FieldRead.record)

/-- Makes requests one after another on one cursor, whether they fail or not. -/
def readAll : List Request → StateM Cursor (List (Except CodecError Answer))
  | [] => return []
  | request :: rest => do
    let answer ← ExceptT.run request.read
    let answers ← readAll rest
    return answer :: answers

/-- The answers to requests made one after another. -/
def answers (c : Cursor) (requests : List Request) : List (Except CodecError Answer) :=
  ((readAll requests).run c).1

end Cursor

end SszRecord

/-
Offsets and offset tables.

A value of variable size is referenced from the inline part of its region by a slot of four
little-endian bytes that counts from the start of the region.  A sequence of such values is a
region that opens with one slot an item.  The first offset equals the size of the inline part,
offsets never decrease, and none points behind the region.
-/
import SszRecord.Error
import SszRecord.Schema

namespace SszRecord.Wire

/-- The largest offset that a slot can hold. -/
def maxOffset : Nat := 4294967295

/-- The slot of an offset. -/
def offsetSlot (offset : Nat) : Except CodecError Bytes :=
  if offset ≤ maxOffset then .ok (Bytes.ofNat offsetSize offset)
  else .error (.itemTooLarge offset maxOffset)

/-- The offset in the slot at `start`. -/
def readOffset (region : Bytes) (start : Nat) : Except CodecError Nat :=
  if region.length < start + offsetSize then
    .error (.shortBuffer (start + offsetSize) region.length)
  else .ok (Bytes.toNat ((region.drop start).take offsetSize))

/-- A part of a region, from `start` up to `stop`. -/
structure Span where
  start : Nat
  stop : Nat
deriving DecidableEq, Repr

/-- The bytes of a span. -/
def Span.slice (s : Span) (region : Bytes) : Bytes := (region.drop s.start).take (s.stop - s.start)

/-- The number of items that the first offset of a table tells, at most `max`. -/
def itemCount (region : Bytes) (max : Nat) : Except CodecError Nat :=
  if region.isEmpty then .ok 0
  else do
    let first ← readOffset region 0
    if region.length < first then throw (.badOffset first 0 region.length)
    if first = 0 ∨ first % offsetSize ≠ 0 then
      throw (.firstOffset (Nat.max (first / offsetSize) 1 * offsetSize) first)
    let count := first / offsetSize
    if max < count then throw (.listTooLong count max)
    return count

/-- Refuses offsets that decrease, starting from `previous`, or point behind `stop`. -/
def checkOffsets (stop : Nat) : (previous : Nat) → List Nat → Except CodecError Unit
  | _, [] => .ok ()
  | previous, offset :: rest =>
    if stop < offset ∨ offset < previous then .error (.badOffset offset previous stop)
    else checkOffsets stop offset rest

/-- The spans between offsets; the last one ends at `stop`. -/
def spans (stop : Nat) : List Nat → List Span
  | [] => []
  | [start] => [⟨start, stop⟩]
  | start :: next :: rest => ⟨start, next⟩ :: spans stop (next :: rest)

/-- The spans that a list of offsets cuts out of a region of `stop` bytes. -/
def spansOfOffsets (offsets : List Nat) (stop : Nat) : Except CodecError (List Span) := do
  checkOffsets stop 0 offsets
  return spans stop offsets

/-- The first `count` offsets of a table, from the slot at `start` on. -/
def readTable (region : Bytes) : (start count : Nat) → Except CodecError (List Nat)
  | _, 0 => .ok []
  | start, count + 1 => do
    let offset ← readOffset region start
    let rest ← readTable region (start + offsetSize) count
    return offset :: rest

/-- The spans of `count` items behind their table. -/
def itemSpans (region : Bytes) (count : Nat) : Except CodecError (List Span) :=
  if count = 0 then .ok []
  else do
    let tableSize := count * offsetSize
    if region.length < tableSize then throw (.shortBuffer tableSize region.length)
    let offsets ← readTable region 0 count
    let first := offsets.headD 0
    if first ≠ tableSize then throw (.firstOffset tableSize first)
    spansOfOffsets offsets region.length

end SszRecord.Wire

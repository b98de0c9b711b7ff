/-
Decoding.

A region is read in two passes.  The first one walks over its inline part and collects the spans
of the values of fixed size and the offsets of the others; the second one decodes every value from
its span.  Nothing is skipped: spans tile the region, and a value has to use all of its span.

Containers and sequences below the record count as levels, and a region that lies deeper than the
limit is refused before its bytes are looked at.

Sizes are exact here, and spans are cut without a look at where the region ends.  Wire/Machine.lean
decodes with what a machine has for both.
-/
import SszRecord.Items
import SszRecord.Schema.Validity
import SszRecord.Wire.OffsetTable

namespace SszRecord

namespace Wire

/-- What the inline part of a container holds for a field. -/
inductive Slot where
  | inline (span : Span)
  | offset (offset : Nat)
deriving DecidableEq, Repr

/-- The offset of a slot that holds one. -/
def Slot.offset? : Slot → Option Nat
  | .inline _ => none
  | .offset n => some n

/-- The slots of fields from `start` on.  While no offset has been read, the next one has to be
the size of the inline part. -/
def readSlots (region : Bytes) (inlineSize : Nat) :
    (start : Nat) → (isFirst : Bool) → List (Field Kind) → Except CodecError (List Slot)
  | _, _, [] => .ok []
  | start, isFirst, field :: rest =>
    match field.kind.fixedSize? with
    | some size => do
      let slots ← readSlots region inlineSize (start + size) isFirst rest
      return .inline ⟨start, start + size⟩ :: slots
    | none => do
      let offset ← readOffset region start
      if isFirst ∧ offset ≠ inlineSize then throw (.firstOffset inlineSize offset)
      let slots ← readSlots region inlineSize (start + offsetSize) false rest
      return .offset offset :: slots

/-- The spans of all fields: inline ones as they are, the others from the payloads in turn. -/
def fieldSpans : List Slot → (payloads : List Span) → Except CodecError (List Span)
  | [], _ => .ok []
  | .inline span :: slots, payloads => return span :: (← fieldSpans slots payloads)
  | .offset _ :: slots, payload :: payloads => return payload :: (← fieldSpans slots payloads)
  | .offset _ :: _, [] => .error (.mismatch .missingPayload)

/-- The spans of the fields of a container that fills a region. -/
def containerSpans (fields : List (Field Kind)) (region : Bytes) :
    Except CodecError (List Span) := do
  let inlineSize := Kind.fixedPartSize fields
  if region.length < inlineSize then throw (.shortBuffer inlineSize region.length)
  if Kind.allFixedSize fields ∧ region.length ≠ inlineSize then
    throw (.trailingBytes inlineSize region.length)
  let slots ← readSlots region inlineSize 0 true fields
  let payloads ← spansOfOffsets (slots.filterMap Slot.offset?) region.length
  fieldSpans slots payloads

/-- Refuses a region that has not exactly the expected length. -/
def exactLength (region : Bytes) (expected : Nat) : Except CodecError Unit :=
  if region.length < expected then .error (.shortBuffer expected region.length)
  else if expected < region.length then .error (.trailingBytes expected region.length)
  else .ok ()

/-- How many items a sequence may have. -/
inductive Count where
  | exactly (n : Nat)
  | atMost (max : Nat)
deriving DecidableEq, Repr

/-- The regions of items of `size` bytes each. -/
def packedItems (size : Nat) (count : Count) (region : Bytes) :
    Except CodecError (List Bytes) := do
  match count with
  | .exactly n =>
    exactLength region (size * n)
    return Bytes.pieces size n region
  | .atMost max =>
    if region.length % size ≠ 0 then throw (.misalignedList region.length size)
    let n := region.length / size
    if max < n then throw (.listTooLong n max)
    return Bytes.pieces size n region

/-- The regions of items behind an offset table. -/
def tabledItems (count : Count) (region : Bytes) : Except CodecError (List Bytes) := do
  let n ← match count with
    | .exactly n =>
      if region.length < n * offsetSize then
        .error (.shortBuffer (n * offsetSize) region.length)
      else .ok n
    | .atMost max => itemCount region max
  let spans ← itemSpans region n
  return spans.map fun span => span.slice region

/-- The regions of the items of a sequence that fills a region. -/
def itemRegions (item : Kind) (count : Count) (region : Bytes) : Except CodecError (List Bytes) :=
  match item.fixedSize? with
  | some size => packedItems size count region
  | none => tabledItems count region

/-- Refuses a level below the limit. -/
def checkDepth (maxDepth depth : Nat) : Except CodecError Unit :=
  if maxDepth < depth then .error (.nestingTooDeep maxDepth) else .ok ()

end Wire

namespace Kind

mutual

/-- The value that a region encodes; `depth` counts the levels around it. -/
def decode (maxDepth : Nat) : Kind → (depth : Nat) → Bytes → Except CodecError Value
  | .bytes n, _, region => do
    Wire.exactLength region n
    return .bytes region
  | .uint w, _, region => do
    Wire.exactLength region w
    match UInt256.ofBytes? region with
    | some u => return .uint u
    | none => throw (.config (.undecodableWidth w))
  | .byteList max, _, region =>
    if max < region.length then .error (.itemTooLarge region.length max)
    else .ok (.bytes region)
  | .vector item n, depth, region => do
    Wire.checkDepth maxDepth (depth + 1)
    let regions ← Wire.itemRegions item (.exactly n) region
    return .vector (← mapItems (fun r => item.decode maxDepth (depth + 1) r) regions)
  | .list item max, depth, region => do
    Wire.checkDepth maxDepth (depth + 1)
    let regions ← Wire.itemRegions item (.atMost max) region
    return .list (← mapItems (fun r => item.decode maxDepth (depth + 1) r) regions)
  | .container _ fields, depth, region => do
    Wire.checkDepth maxDepth (depth + 1)
    let spans ← Wire.containerSpans fields region
    return .container (← decodeFields maxDepth fields (depth + 1) (spans.map (·.slice region)))

/-- The values of fields, each from its own region. -/
def decodeFields (maxDepth : Nat) :
    List (Field Kind) → (depth : Nat) → List Bytes → Except CodecError (List Value)
  | ⟨_, kind, _⟩ :: fields, depth, region :: regions => do
    let v ← kind.decode maxDepth depth region
    let vs ← decodeFields maxDepth fields depth regions
    return v :: vs
  | _, _, _ => .ok []

end

end Kind

/-- The record that a byte string encodes, its own fields being at level zero. -/
def Schema.decode (s : Schema) (maxDepth : Nat) (data : Bytes) : Except CodecError Record := do
  s.validate
  let spans ← Wire.containerSpans s.fields data
  Kind.decodeFields maxDepth s.fields 0 (spans.map (·.slice data))

end SszRecord

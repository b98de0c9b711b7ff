/-
Decoding on a machine.

Wire/Decoding.lean says what a region means, with sizes that are exact numbers.  A machine takes
the same steps with what it has: it calculates sizes in an arithmetic, it cuts a span out of a
region only where the region has it, and it may not have room for all items of a sequence.  So an
attempt to decode gives a value, fails with an error, or breaks off.

Words wrap around or are checked, as the program has been built; `Machine.wrapping` and
`Machine.checked` are these two machines.  The room that their memory leaves is not part of them.
-/
import SszRecord.Schema.Arithmetic
import SszRecord.Wire.Decoding

namespace SszRecord

/-- A calculation that may fail, and may break off: then there is no answer at all. -/
abbrev Attempt (β : Type) := ExceptT CodecError Option β

namespace Wire

/-- The bytes of a span, if the region has them. -/
def Span.slice? (s : Span) (region : Bytes) : Option Bytes :=
  if s.start ≤ s.stop ∧ s.stop ≤ region.length then some ((region.take s.stop).drop s.start)
  else none

/-- The spans of `count` items of `size` bytes each, the first of them at `start`. -/
def packedSpans (size : Nat) : (start count : Nat) → List Span
  | _, 0 => []
  | start, count + 1 => ⟨start, start + size⟩ :: packedSpans size (start + size) count

end Wire

/-- What decoding takes from the machine it runs on. -/
structure Machine (α : Type) where
  /-- How sizes are calculated. -/
  arith : Arithmetic α
  /-- The number that a size is compared as. -/
  toNat : α → Nat
  /-- How a span is cut out of a region. -/
  cut : Wire.Span → Bytes → Option Bytes := Wire.Span.slice?
  /-- Whether there is room for so many items of a region of so many bytes. -/
  hasRoom : (items length : Nat) → Bool := fun _ _ => true

namespace Machine

/-- A machine with numbers of any size. -/
def exact : Machine Nat where
  arith := .exact
  toNat n := n

/-- A machine with words that wrap around. -/
def wrapping : Machine UInt64 where
  arith := .wrapping
  toNat := UInt64.toNat

/-- A machine with words that are checked. -/
def checked : Machine UInt64 where
  arith := .checked
  toNat := UInt64.toNat

variable {α : Type} (M : Machine α)

/-! ### Containers -/

/-- The offset in the slot at `start`. -/
def readOffset (region : Bytes) (start : α) : Attempt Nat := do
  let stop ← M.arith.add start (M.arith.ofNat offsetSize)
  if region.length < M.toNat stop then throw (.shortBuffer (M.toNat stop) region.length)
  else do
    let slot ← (⟨M.toNat start, M.toNat stop⟩ : Wire.Span).slice? region
    return Bytes.toNat slot

/-- The slots of fields from `start` on. -/
def readSlots (region : Bytes) (inlineSize : Nat) :
    (start : α) → (isFirst : Bool) → List (Field Kind) → Attempt (List Wire.Slot)
  | _, _, [] => return []
  | start, isFirst, field :: rest => do
    match ← field.kind.sizeIn M.arith with
    | some size => do
      let stop ← M.arith.add start size
      let slots ← readSlots region inlineSize stop isFirst rest
      return .inline ⟨M.toNat start, M.toNat stop⟩ :: slots
    | none => do
      let offset ← M.readOffset region start
      if isFirst ∧ offset ≠ inlineSize then throw (.firstOffset inlineSize offset)
      else do
        let stop ← M.arith.add start (M.arith.ofNat offsetSize)
        let slots ← readSlots region inlineSize stop false rest
        return .offset offset :: slots

/-- The spans of the fields of a container that fills a region. -/
def containerSpans (fields : List (Field Kind)) (region : Bytes) : Attempt (List Wire.Span) := do
  let size ← (Kind.addSlots M.arith (M.arith.ofNat 0) fields : Option α)
  let inlineSize := M.toNat size
  if region.length < inlineSize then throw (.shortBuffer inlineSize region.length)
  else if Kind.allFixedSize fields ∧ region.length ≠ inlineSize then
    throw (.trailingBytes inlineSize region.length)
  else do
    let slots ← M.readSlots region inlineSize (M.arith.ofNat 0) true fields
    let payloads ← Wire.spansOfOffsets (slots.filterMap Wire.Slot.offset?) region.length
    Wire.fieldSpans slots payloads

/-! ### Sequences -/

/-- Makes room for the items of a region. -/
def reserve (items : Nat) (region : Bytes) : Attempt Unit :=
  if M.hasRoom items region.length then return () else none

/-- The spans of `size` bytes each that a region is divided into.  No region can be divided into
empty ones. -/
def divide (size : Nat) (region : Bytes) : Option (List Wire.Span) :=
  if size = 0 then none else some (Wire.packedSpans size 0 (region.length / size))

/-- The spans of items of `size` bytes each. -/
def packedCuts (size : α) (count : Wire.Count) (region : Bytes) : Attempt (List Wire.Span) :=
  match count with
  | .exactly n => do
    let total ← M.arith.mul size (M.arith.ofNat n)
    Wire.exactLength region (M.toNat total)
    M.reserve n region
    divide (M.toNat size) region
  | .atMost max => do
    let spans ← divide (M.toNat size) region
    if region.length % M.toNat size ≠ 0 then
      throw (.misalignedList region.length (M.toNat size))
    else if max < spans.length then throw (.listTooLong spans.length max)
    else do
      M.reserve spans.length region
      return spans

/-- The first `count` offsets of a table, from the slot at `start` on. -/
def readTable (region : Bytes) : (start : α) → (count : Nat) → Attempt (List Nat)
  | _, 0 => return []
  | start, count + 1 => do
    let offset ← M.readOffset region start
    let stop ← M.arith.add start (M.arith.ofNat offsetSize)
    let rest ← readTable region stop count
    return offset :: rest

/-- The spans of `count` items behind their table. -/
def itemSpans (region : Bytes) (count : Nat) : Attempt (List Wire.Span) :=
  if count = 0 then return []
  else do
    let table ← M.arith.mul (M.arith.ofNat count) (M.arith.ofNat offsetSize)
    let tableSize := M.toNat table
    if region.length < tableSize then throw (.shortBuffer tableSize region.length)
    else do
      M.reserve count region
      let offsets ← M.readTable region (M.arith.ofNat 0) count
      let first := offsets.headD 0
      if first ≠ tableSize then throw (.firstOffset tableSize first)
      else Wire.spansOfOffsets offsets region.length

/-- The number of items behind a table. -/
def tableCount (count : Wire.Count) (region : Bytes) : Attempt Nat :=
  match count with
  | .exactly n => do
    let table ← M.arith.mul (M.arith.ofNat n) (M.arith.ofNat offsetSize)
    if region.length < M.toNat table then throw (.shortBuffer (M.toNat table) region.length)
    else return n
  | .atMost max => Wire.itemCount region max

/-- The spans of the items of a sequence that fills a region. -/
def itemCuts (item : Kind) (count : Wire.Count) (region : Bytes) : Attempt (List Wire.Span) := do
  match ← item.sizeIn M.arith with
  | some size => M.packedCuts size count region
  | none => do
    M.itemSpans region (← M.tableCount count region)

end Machine

/-! ### Values -/

namespace Kind

variable {α : Type} (M : Machine α)

mutual

/-- The value that a region encodes, decoded on a machine. -/
def decodeOn (maxDepth : Nat) : Kind → (depth : Nat) → Bytes → Attempt Value
  | .bytes n, _, region => do
    Wire.exactLength region n
    return .bytes region
  | .uint w, _, region => do
    Wire.exactLength region w
    match UInt256.ofBytes? region with
    | some u => return .uint u
    | none => throw (.config (.undecodableWidth w))
  | .byteList max, _, region =>
    if max < region.length then throw (.itemTooLarge region.length max)
    else return .bytes region
  | .vector item n, depth, region => do
    Wire.checkDepth maxDepth (depth + 1)
    let spans ← M.itemCuts item (.exactly n) region
    let items ← spans.mapM fun span => do decodeOn maxDepth item (depth + 1) (← M.cut span region)
    return .vector items
  | .list item max, depth, region => do
    Wire.checkDepth maxDepth (depth + 1)
    let spans ← M.itemCuts item (.atMost max) region
    let items ← spans.mapM fun span => do decodeOn maxDepth item (depth + 1) (← M.cut span region)
    return .list items
  | .container _ fields, depth, region => do
    Wire.checkDepth maxDepth (depth + 1)
    let spans ← M.containerSpans fields region
    return .container (← decodeFieldsOn maxDepth fields (depth + 1) region spans)

/-- The values of fields, each cut out of the region of the container. -/
def decodeFieldsOn (maxDepth : Nat) :
    List (Field Kind) → (depth : Nat) → (region : Bytes) → List Wire.Span → Attempt (List Value)
  | ⟨_, kind, _⟩ :: fields, depth, region, span :: spans => do
    let v ← decodeOn maxDepth kind depth (← M.cut span region)
    let vs ← decodeFieldsOn maxDepth fields depth region spans
    return v :: vs
  | _, _, _, _ => return []

end

end Kind

/-- The record that a byte string encodes, decoded on a machine. -/
def Schema.decodeOn {α : Type} (M : Machine α) (s : Schema) (maxDepth : Nat) (data : Bytes) :
    Attempt Record := do
  s.validate
  let spans ← M.containerSpans s.fields data
  Kind.decodeFieldsOn M maxDepth s.fields 0 data spans

end SszRecord

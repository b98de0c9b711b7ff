/-
Roots of values.

Integers are chunks of their own, byte strings are cut into chunks, and sequences of integers are
packed into chunks; all other sequences, and containers, have the roots of their members as
leaves.  The root of a value of variable length is joined with its length, so that short content
never passes for longer content with zeros behind it.

Maxima are checked before anything is hashed, and levels are counted as in decoding.
-/
import SszRecord.Items
import SszRecord.Merkle.Tree
import SszRecord.Schema.Validity

namespace SszRecord

/-- The largest count or size of 64 bits. -/
def maxSize : Nat := 18446744073709551615

/-- The chunk of an integer. -/
def UInt256.toDigest (u : UInt256) : Digest := ⟨u.toBytes, u.length_toBytes⟩

/-- The bytes of an item in a sequence of integers of `width` bytes. -/
def packedItem (width : Nat) : Value → Except CodecError Bytes
  | .uint u =>
    if u.FitsWidth width then .ok (u.toBytes.take width)
    else .error (.mismatch (.packedItem "uint" (width * 8)))
  | other => .error (.mismatch (.packedItem other.shape (width * 8)))

namespace Kind

variable {α : Type} (nodes : Nodes α) (maxDepth : Nat)

/-- The root over the items of a sequence with room for `bound` of them; `rootOf` gives the root
of an item that is not packed. -/
def itemsRoot (item : Kind) (rootOf : Value → Except CodecError α) (bound : Nat)
    (items : List Value) : Except CodecError α :=
  match item with
  | .uint width => do
    let packed ← mapItems (packedItem width) items
    nodes.merkleizeBytes packed.flatten (Nat.min (bound * width) maxSize)
  | _ => do
    let roots ← mapItems rootOf items
    nodes.merkleize roots bound

/-- Refuses a level below the limit. -/
def checkLevel (depth : Nat) : Except CodecError Unit :=
  if maxDepth < depth then .error (.nestingTooDeep maxDepth) else .ok ()

mutual

/-- The root of a value; `depth` counts the levels around it. -/
def root : Kind → (depth : Nat) → Value → Except CodecError α
  | .uint w, _, .uint u =>
    if u.FitsWidth w then .ok (nodes.leaf u.toDigest)
    else .error (.mismatch (.value none (.tooWide u w)))
  | .bytes n, _, .bytes b =>
    if b.length = n then nodes.merkleizeBytes b n
    else .error (.mismatch (.value none (.byteCount n b.length)))
  | .byteList max, _, .bytes b =>
    if b.length ≤ max then return nodes.mixInLength (← nodes.merkleizeBytes b max) b.length
    else .error (.limitExceeded b.length max)
  | .vector item n, depth, .vector items =>
    if items.length = n then do
      checkLevel maxDepth (depth + 1)
      itemsRoot nodes item (fun v => item.root (depth + 1) v) n items
    else .error (.mismatch (.value none (.itemCount n items.length)))
  | .list item max, depth, .list items =>
    if items.length ≤ max then do
      checkLevel maxDepth (depth + 1)
      let r ← itemsRoot nodes item (fun v => item.root (depth + 1) v) max items
      return nodes.mixInLength r items.length
    else .error (.limitExceeded items.length max)
  | .container name fields, depth, .container values => do
    checkLevel maxDepth (depth + 1)
    if values.length = fields.length then do
      let roots ← fieldRoots fields (depth + 1) values
      nodes.merkleize roots roots.length
    else .error (.mismatch (.fieldCount name fields.length values.length))
  | kind, _, value => .error (.mismatch (.value none (.shape value.shape kind.shape)))

/-- The roots of the values of fields. -/
def fieldRoots : List (Field Kind) → (depth : Nat) → List Value → Except CodecError (List α)
  | ⟨_, kind, _⟩ :: fields, depth, value :: values => do
    let r ← kind.root depth value
    let rs ← fieldRoots fields depth values
    return r :: rs
  | _, _, _ => .ok []

end

end Kind

namespace Schema

variable {α : Type} (nodes : Nodes α)

/-- The root of a record of the schema, its own fields being at level zero. -/
def rootOver (s : Schema) (maxDepth : Nat) (r : Record) : Except CodecError α := do
  s.validate
  if r.length = s.fields.length then do
    let roots ← Kind.fieldRoots nodes maxDepth s.fields 0 r
    nodes.merkleize roots roots.length
  else throw (.mismatch (.fieldCount s.name s.fields.length r.length))

/-- The hash tree root of a record. -/
def root (s : Schema) (maxDepth : Nat) (r : Record) : Except CodecError Digest :=
  s.rootOver sha256Nodes maxDepth r

end Schema

/-- The deepest level that is read or hashed unless a setting says otherwise. -/
def defaultMaxDepth : Nat := 32

/-- The hash tree root of a single value; its kind is taken as it is. -/
def Kind.valueRoot (k : Kind) (v : Value) : Except CodecError Digest :=
  k.root sha256Nodes defaultMaxDepth 0 v

end SszRecord

/-
Hash trees over chunks.

A list of leaves is filled up with zero leaves to the next power of two of a limit and joined
pairwise, level by level, up to one root.  The padding is never built: a level of odd length gets
the root of a zero tree of its height.
-/
import SszRecord.Error
import SszRecord.Merkle.Nodes

namespace SszRecord

/-- The depth of a tree with room for `limit` leaves, and for one leaf at least. -/
def treeDepth (limit : Nat) : Nat := if limit ≤ 1 then 0 else (limit - 1).log2 + 1

/-- The chunks of a byte string, the last one filled up with zero bytes. -/
def packChunks (b : Bytes) : List Digest :=
  (Bytes.pieces 32 ((b.length + 31) / 32) b).map (ByteVector.padded 32)

/-- The number of chunks of `n` bytes. -/
def chunkCount (n : Nat) : Nat := (n + 31) / 32

namespace Nodes

variable {α : Type} (nodes : Nodes α)

/-- The level above a level of the given height. -/
def pairUp (height : Nat) : List α → List α
  | a :: b :: rest => nodes.join a b :: pairUp height rest
  | [a] => [nodes.join a (nodes.zero height)]
  | [] => []

/-- The root that lies `depth` levels above a level of the given height. -/
def climb (height : Nat) : (depth : Nat) → List α → α
  | 0, level => level.headD (nodes.zero height)
  | depth + 1, level => climb (height + 1) depth (nodes.pairUp height level)

/-- The root over leaves or roots of subtrees, with room for `limit` of them. -/
def merkleize (level : List α) (limit : Nat) : Except CodecError α :=
  if limit < level.length then .error (.limitExceeded level.length limit)
  else .ok (nodes.climb 0 (treeDepth limit) level)

/-- The root over the chunks of a byte string that may have `max` bytes. -/
def merkleizeBytes (b : Bytes) (max : Nat) : Except CodecError α :=
  nodes.merkleize ((packChunks b).map nodes.leaf) (chunkCount max)

/-- A root joined with a length. -/
def mixInLength (root : α) (length : Nat) : α :=
  nodes.join root (nodes.leaf (ByteVector.ofNat 32 length))

end Nodes

/-- The root over chunks with room for `limit` of them, or for those alone.  The zero ladder is
built as high as the tree. -/
def rootOfChunks (h : Digest → Digest → Digest) (chunks : List Digest) (limit : Option Nat) :
    Except CodecError Digest :=
  let limit := limit.getD chunks.length
  (Nodes.onLadder h (Nodes.ladder h (treeDepth limit))).merkleize chunks limit

end SszRecord

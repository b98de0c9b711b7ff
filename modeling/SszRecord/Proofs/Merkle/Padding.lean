/-
How far trees are padded.

A tree over chunks is as deep as its limit demands, and zero leaves stand behind the chunks.  The
program takes the roots of its zero subtrees from a ladder that is built as high as the tree and no
higher, so that no rung above that may ever be asked for.  For a sequence of integers the limit is
a number of bytes at first, which is cut off at the largest size before it is divided into chunks;
so no such tree has more than `packedLevels` levels.

* `Nodes.climb_onLadder` : climbing asks for no rung above the root;
* `rootOfChunks_eq` : the root over chunks, for every limit;
* `treeDepth_packed` : the depth that is cut off;
* `Kind.valueRoot_integers` : the root of a list of integers, for every maximum.
-/
import Mathlib
import SszRecord.Proofs.Merkle.Definition

namespace SszRecord

namespace Nodes

/-! ### The ladder -/

section Ladder

variable {α : Type} {nodes nodes' : Nodes α}

theorem pairUp_congr {height : Nat} (join : nodes.join = nodes'.join)
    (rung : nodes.zero height = nodes'.zero height) (level : List α) :
    nodes.pairUp height level = nodes'.pairUp height level := by
  induction level using pairUp.induct with
  | case1 a b rest ih => rw [pairUp, pairUp, ih, join]
  | case2 a => rw [pairUp, pairUp, join, rung]
  | case3 => rw [pairUp, pairUp]

/-- Climbing asks for no rung below its first level and for none above the root. -/
theorem climb_congr (join : nodes.join = nodes'.join) {height depth : Nat}
    (rungs : ∀ k, height ≤ k → k ≤ height + depth → nodes.zero k = nodes'.zero k)
    (level : List α) : nodes.climb height depth level = nodes'.climb height depth level := by
  have rung := rungs height (Nat.le_refl _) (Nat.le_add_right _ _)
  induction depth generalizing height level with
  | zero => rw [climb, climb, rung]
  | succ depth ih =>
    have above : ∀ k, height + 1 ≤ k → k ≤ height + 1 + depth → nodes.zero k = nodes'.zero k := by
      intro k hlow hhigh
      exact rungs k (by omega) (by omega)
    rw [climb, climb, pairUp_congr join rung]
    exact ih above _ (above _ (Nat.le_refl _) (Nat.le_add_right _ _))

end Ladder

variable (h : Digest → Digest → Digest)

/-- A ladder as high as the tree has all the rungs that are asked for. -/
theorem climb_onLadder (depth : Nat) (level : List Digest) :
    (onLadder h (ladder h depth)).climb 0 depth level = (ofHash h).climb 0 depth level := by
  have rungs : ∀ k, 0 ≤ k → k ≤ 0 + depth →
      (onLadder h (ladder h depth)).zero k = (ofHash h).zero k := by
    intro k _ hk
    rw [Nat.zero_add] at hk
    have hrung : (ladder h depth).getD k zeroDigest = zeroRoot h k := by
      rw [List.getD_eq_getElem?_getD, ladder_getElem? h depth k hk, Option.getD_some]
    exact hrung
  have join : (onLadder h (ladder h depth)).join = (ofHash h).join := rfl
  exact climb_congr join rungs level

theorem perfect_zero (depth : Nat) : perfect h depth (fun _ => zeroDigest) = zeroRoot h depth := by
  induction depth with
  | zero => rfl
  | succ depth ih => rw [perfect, zeroRoot, ih]

end Nodes

theorem treeDepth_max_one (limit : Nat) : treeDepth limit = Nat.clog 2 (max limit 1) := by
  rw [treeDepth_eq_clog]
  rcases Nat.eq_zero_or_pos limit with hzero | hpos
  · rw [hzero]
    rfl
  · rw [Nat.max_eq_left hpos]

/-- **The root over chunks.**  More chunks than the limit are refused; up to the limit, the root is
that of the perfect tree with room for it, over the chunks and zero leaves behind them. -/
theorem rootOfChunks_eq (h : Digest → Digest → Digest) (chunks : List Digest)
    (limit? : Option Nat) :
    let limit := limit?.getD chunks.length
    rootOfChunks h chunks limit? =
      if limit < chunks.length then .error (.limitExceeded chunks.length limit)
      else .ok (Nodes.perfect h (Nat.clog 2 (max limit 1)) fun i => chunks.getD i zeroDigest) := by
  intro limit
  rw [rootOfChunks, Nodes.merkleize, Nodes.climb_onLadder, Nodes.climb_eq, ← treeDepth_max_one]
  rfl

/-! ### Sequences of integers -/

/-- The most levels of a tree over packed integers: those of the chunks of `maxSize` bytes. -/
def packedLevels : Nat := 59

theorem treeDepth_min (m n : Nat) : treeDepth (min m n) = min (treeDepth m) (treeDepth n) := by
  rw [treeDepth_eq_clog, treeDepth_eq_clog, treeDepth_eq_clog]
  exact (Nat.clog_monotone 2).map_min

/-- A number of bytes that is cut off at the largest size is cut off at a power of two of chunks. -/
theorem chunkCount_min (n : Nat) :
    chunkCount (min n maxSize) = min (chunkCount n) (2 ^ packedLevels) := by
  rw [chunkCount, chunkCount, maxSize, packedLevels]
  omega

theorem treeDepth_packed (n : Nat) :
    treeDepth (chunkCount (min n maxSize)) = min (treeDepth (chunkCount n)) packedLevels := by
  rw [chunkCount_min, treeDepth_min, treeDepth_eq_clog (2 ^ packedLevels),
    Nat.clog_pow 2 packedLevels Nat.one_lt_two]

/-- The tree over `n` bytes is as deep as it should be exactly if they are at most one more than the
largest size. -/
theorem treeDepth_le_packedLevels {n : Nat} :
    treeDepth (chunkCount n) ≤ packedLevels ↔ n ≤ maxSize + 1 := by
  rw [treeDepth_le_iff, chunkCount, maxSize, packedLevels]
  omega

namespace Kind

section Packed

variable {w bound : Nat} {items : List UInt256}

/-- The packed bytes of integers. -/
def packedIntegers (w : Nat) (items : List UInt256) : Bytes :=
  items.flatMap fun u => Bytes.ofNat w u.toNat

theorem holds_integers (width : w ∈ uintWidths) (fits : ∀ u ∈ items, u.FitsWidth w) :
    ∀ v ∈ items.map Value.uint, (uint w).Holds v := by
  intro v hv
  obtain ⟨u, hu, rfl⟩ := List.mem_map.1 hv
  exact .uint width (fits u hu)

theorem flatMap_packedBytes (w : Nat) (items : List UInt256) :
    (items.map Value.uint).flatMap (packedBytes w) = packedIntegers w items := by
  rw [List.flatMap_map]
  rfl

theorem length_packedIntegers (width : w ∈ uintWidths) (fits : ∀ u ∈ items, u.FitsWidth w) :
    (packedIntegers w items).length = w * items.length := by
  rw [← flatMap_packedBytes, length_flatMap_packedBytes (holds_integers width fits),
    List.length_map]

/-- The root over packed integers, as far as the largest size of their bytes lets it reach. -/
theorem itemsRoot_integers (h : Digest → Digest → Digest) (width : w ∈ uintWidths)
    (length : items.length ≤ bound) (fits : ∀ u ∈ items, u.FitsWidth w)
    (size : w * items.length ≤ maxSize) (rootOf : Value → Except CodecError Digest) :
    itemsRoot (.ofHash h) (.uint w) rootOf bound (items.map Value.uint) =
      .ok (Nodes.perfect h (min (treeDepth (chunkCount (bound * w))) packedLevels)
        (chunk (packedIntegers w items))) := by
  have hlen := length_packedIntegers width fits
  have hroom : w * items.length ≤ bound * w := by
    rw [Nat.mul_comm]
    exact Nat.mul_le_mul_right w length
  have hle : (packedIntegers w items).length ≤ min (bound * w) maxSize := by
    rw [hlen]
    exact Nat.le_min.2 ⟨hroom, size⟩
  have hbytes : ((items.map Value.uint).map (packedBytes w)).flatten = packedIntegers w items :=
    flatMap_packedBytes w items
  have hdepth : Nat.clog 2 (min (bound * w) maxSize ⌈/⌉ 32) =
      min (treeDepth (chunkCount (bound * w))) packedLevels := by
    rw [← chunkCount_eq, ← treeDepth_eq_clog, treeDepth_packed]
  rw [itemsRoot, mapItems_packedItem (holds_integers width fits), ok_bind, hbytes]
  rw [merkleizeBytes_of_le (h := h) hle, bytesTree, hdepth]

theorem root_integers (h : Digest → Digest → Digest) {m depth : Nat} (width : w ∈ uintWidths)
    (length : items.length ≤ bound) (fits : ∀ u ∈ items, u.FitsWidth w)
    (size : w * items.length ≤ maxSize) (level : depth + 1 ≤ m) :
    (list (uint w) bound).root (.ofHash h) m depth (.list (items.map Value.uint)) =
      .ok (withLength h (Nodes.perfect h (min (treeDepth (chunkCount (bound * w))) packedLevels)
        (chunk (packedIntegers w items))) items.length) := by
  have hlen : (items.map Value.uint).length ≤ bound := by rwa [List.length_map]
  rw [root_list_eq_ok]
  refine ⟨_, rfl, hlen, level, _, itemsRoot_integers h width length fits size _, ?_⟩
  rw [List.length_map]
  rfl

end Packed

/-- **The root of a list of integers.**  It is the root over the packed integers, in a tree as deep
as the maximum demands but not deeper than `packedLevels`, hashed with their number; the tree is as
deep as the maximum demands exactly if the bytes of so many integers are at most one more than the
largest size. -/
theorem valueRoot_integers {w bound : Nat} {items : List UInt256} (width : w ∈ uintWidths)
    (length : items.length ≤ bound) (fits : ∀ u ∈ items, u.FitsWidth w)
    (size : (packedIntegers w items).length ≤ maxSize) :
    let depth := Nat.clog 2 (max 1 (bound * w ⌈/⌉ 32))
    (list (uint w) bound).valueRoot (.list (items.map Value.uint)) =
        .ok (withLength Sha256.hashPair (Nodes.perfect Sha256.hashPair (min depth packedLevels)
          (chunk (packedIntegers w items))) items.length) ∧
      (min depth packedLevels = depth ↔ bound * w ≤ 2 ^ 64) := by
  intro depth
  have hdepth : treeDepth (chunkCount (bound * w)) = depth := by
    rw [treeDepth_max_one, chunkCount_eq, Nat.max_comm]
  have hsize : w * items.length ≤ maxSize := by rwa [length_packedIntegers width fits] at size
  constructor
  · rw [valueRoot, Schema.sha256Nodes_eq, root_integers _ width length fits hsize (by decide),
      hdepth]
  · rw [← hdepth, min_eq_left_iff, treeDepth_le_packedLevels]
    rfl

/-- A list of one integer with room for `2 ^ 60` of 32 bytes, which would take 60 levels. -/
theorem valueRoot_integers_wide :
    let items := [UInt256.ofNat 300]
    32 ∈ uintWidths ∧ items.length ≤ 2 ^ 60 ∧ (∀ u ∈ items, u.FitsWidth 32) ∧
      (packedIntegers 32 items).length ≤ maxSize ∧
      (list (uint 32) (2 ^ 60)).valueRoot (.list (items.map Value.uint)) =
        .ok (withLength Sha256.hashPair (Nodes.perfect Sha256.hashPair
          (min (Nat.clog 2 (max 1 (2 ^ 60 * 32 ⌈/⌉ 32))) packedLevels)
          (chunk (packedIntegers 32 items))) items.length) := by
  intro items
  have width : 32 ∈ uintWidths := by decide
  have length : items.length ≤ 2 ^ 60 := by
    unfold items
    decide
  have fits : ∀ u ∈ items, u.FitsWidth 32 := by
    unfold items
    decide
  have size : (packedIntegers 32 items).length ≤ maxSize := by
    unfold items
    decide
  exact ⟨width, length, fits, size, (valueRoot_integers width length fits size).1⟩

/-- A way to join digests that counts the levels below. -/
def levelAbove (left right : Digest) : Digest :=
  ByteVector.ofNat 32 (max (Bytes.toNat left.bytes) (Bytes.toNat right.bytes) + 1)

theorem toNat_levelAbove {left right : Digest}
    (small : max (Bytes.toNat left.bytes) (Bytes.toNat right.bytes) + 1 < 256 ^ 32) :
    Bytes.toNat (levelAbove left right).bytes =
      max (Bytes.toNat left.bytes) (Bytes.toNat right.bytes) + 1 := by
  rw [levelAbove, ByteVector.ofNat, Bytes.toNat_ofNat, Nat.mod_eq_of_lt small]

theorem toNat_zeroRoot_levelAbove {depth : Nat} (small : depth < 256 ^ 32) :
    Bytes.toNat (Nodes.zeroRoot levelAbove depth).bytes = depth := by
  induction depth with
  | zero => rfl
  | succ depth ih =>
    have hbelow := ih (by omega)
    rw [Nodes.zeroRoot, toNat_levelAbove (by rwa [hbelow, Nat.max_self]), hbelow, Nat.max_self]

/-- **Levels are missing.**  Integers of 32 bytes are chunks of their own, and a list with room for
`2 ^ 60` of them asks for 60 levels; but it is hashed as if it had 59, whatever joins the nodes, and
there are ways to join them that tell the two apart. -/
theorem valueRoot_integers_shallow :
    let k := list (uint 32) (2 ^ 60)
    Nat.clog 2 (max 1 (2 ^ 60 * 32 ⌈/⌉ 32)) = 60 ∧
      k.valueRoot (.list []) =
        .ok (withLength Sha256.hashPair (Nodes.zeroRoot Sha256.hashPair 59) 0) ∧
      (∀ h, k.root (.ofHash h) defaultMaxDepth 0 (.list []) =
        .ok (withLength h (Nodes.zeroRoot h 59) 0)) ∧
      k.root (.ofHash levelAbove) defaultMaxDepth 0 (.list []) ≠
        .ok (withLength levelAbove (Nodes.zeroRoot levelAbove 60) 0) := by
  intro k
  have hchunks : chunkCount (2 ^ 60 * 32) = 2 ^ 60 := by
    rw [chunkCount]
    omega
  have hshort : ∀ h, k.root (.ofHash h) defaultMaxDepth 0 (.list []) =
      .ok (withLength h (Nodes.zeroRoot h 59) 0) := by
    intro h
    have hroot := root_integers h (show 32 ∈ uintWidths by decide) (Nat.zero_le (2 ^ 60))
      (List.forall_mem_nil _) (Nat.zero_le maxSize) (show 0 + 1 ≤ defaultMaxDepth by decide)
    have hdepth : min (treeDepth (2 ^ 60)) packedLevels = 59 := by
      rw [treeDepth_eq_clog, Nat.clog_pow 2 60 Nat.one_lt_two]
      rfl
    rw [hchunks, hdepth] at hroot
    have hleaves : chunk (packedIntegers 32 []) = fun _ => zeroDigest := funext chunk_nil
    rw [hleaves, Nodes.perfect_zero] at hroot
    exact hroot
  refine ⟨?_, ?_, hshort, ?_⟩
  · rw [← chunkCount_eq, hchunks, Nat.max_eq_right Nat.one_le_two_pow,
      Nat.clog_pow 2 60 Nat.one_lt_two]
  · rw [valueRoot, Schema.sha256Nodes_eq]
    exact hshort _
  · rw [hshort]
    intro same
    have hroots := congrArg (fun d : Digest => Bytes.toNat d.bytes) (Except.ok.inj same)
    have hzero : Bytes.toNat (ByteVector.ofNat 32 0).bytes = 0 := by decide
    have hlow := toNat_zeroRoot_levelAbove (show 59 < 256 ^ 32 by decide)
    have hhigh := toNat_zeroRoot_levelAbove (show 60 < 256 ^ 32 by decide)
    simp only [withLength] at hroots
    rw [toNat_levelAbove (by rw [hlow, hzero]; decide),
      toNat_levelAbove (by rw [hhigh, hzero]; decide), hlow, hhigh, hzero] at hroots
    exact absurd hroots (by decide)

end Kind

end SszRecord

/-
The definition of hash tree roots.

`Kind.treeRoot` defines the root of a value by recursion on its kind, over perfect trees that are
padded in full.  It knows nothing of levels, of maxima or of the zero ladder, and it never fails.

* `Kind.root_eq` : for values that fit, the root that is computed is the one that is defined;
* `Schema.root_eq_treeRoot` : the same for records, with SHA-256.
-/
import Mathlib
import SszRecord.Proofs.Merkle.Chunks
import SszRecord.Proofs.Merkle.Roots
import SszRecord.Proofs.Schema.Within

namespace SszRecord

namespace Kind

section Definition

variable (h : Digest → Digest → Digest)

/-- The root over a byte string that may have `max` bytes. -/
def bytesTree (max : Nat) (b : Bytes) : Digest :=
  Nodes.perfect h (Nat.clog 2 (max ⌈/⌉ 32)) (chunk b)

/-- A root hashed with a length. -/
def withLength (root : Digest) (length : Nat) : Digest := h root (ByteVector.ofNat 32 length)

/-- The bytes of a packed integer of `width` bytes. -/
def packedBytes (width : Nat) : Value → Bytes
  | .uint u => Bytes.ofNat width u.toNat
  | _ => []

/-- The root over the items of a sequence with room for `bound` of them. -/
def itemsTree (item : Kind) (rootOf : Value → Digest) (bound : Nat) (items : List Value) :
    Digest :=
  match item with
  | .uint w => bytesTree h (bound * w) (items.flatMap (packedBytes w))
  | _ => Nodes.treeOver h bound (items.map rootOf)

mutual

/-- The root of a value. -/
def treeRoot : Kind → Value → Digest
  | .uint _, .uint u => ByteVector.ofNat 32 u.toNat
  | .bytes n, .bytes b => bytesTree h n b
  | .byteList max, .bytes b => withLength h (bytesTree h max b) b.length
  | .vector item n, .vector items => itemsTree h item (fun v => item.treeRoot v) n items
  | .list item max, .list items =>
    withLength h (itemsTree h item (fun v => item.treeRoot v) max items) items.length
  | .container _ fields, .container values =>
    Nodes.treeOver h fields.length (treeRoots fields values)
  | _, _ => zeroDigest

/-- The roots of the values of fields, in the order of the fields. -/
def treeRoots : List (Field Kind) → List Value → List Digest
  | ⟨_, kind, _⟩ :: fields, v :: values => kind.treeRoot v :: treeRoots fields values
  | _, _ => []

end

theorem treeRoots_eq (fields : List (Field Kind)) (values : List Value) :
    treeRoots h fields values = (fields.zip values).map fun p => p.1.kind.treeRoot h p.2 := by
  induction fields generalizing values with
  | nil => rfl
  | cons f fields ih =>
    cases values with
    | nil => rfl
    | cons v values => rw [treeRoots, ih, List.zip_cons_cons, List.map_cons]

theorem itemsTree_of_composite {item : Kind} (hitem : item.isBasic = false)
    (rootOf : Value → Digest) (bound : Nat) (items : List Value) :
    itemsTree h item rootOf bound items = Nodes.treeOver h bound (items.map rootOf) := by
  cases item with
  | uint w => cases hitem
  | _ => rfl

end Definition

variable {h : Digest → Digest → Digest} {m depth : Nat}

/-! ### What is computed -/

theorem merkleizeBytes_of_le {b : Bytes} {max : Nat} (hle : b.length ≤ max) :
    (Nodes.ofHash h).merkleizeBytes b max = .ok (bytesTree h max b) := by
  have hlen : (packChunks b).length ≤ chunkCount max := by
    rw [length_packChunks]
    exact chunkCount_mono hle
  rw [Nodes.merkleizeBytes, Nodes.ofHash, List.map_id, ← Nodes.ofHash,
    Nodes.merkleize_of_le h hlen, Nodes.treeOver, bytesTree, chunkCount_eq]
  simp only [getD_packChunks]

theorem mapItems_packedItem {w : Nat} {items : List Value}
    (each : ∀ v ∈ items, (uint w).Holds v) :
    mapItems (packedItem w) items = .ok (items.map (packedBytes w)) :=
  mapItems_ok fun v hv => by
    cases each v hv with
    | uint width fits =>
      exact (packedItem_eq_ok (width_le width)).2 ⟨_, rfl, fits, rfl⟩

theorem length_flatMap_packedBytes {w : Nat} {items : List Value}
    (each : ∀ v ∈ items, (uint w).Holds v) :
    (items.flatMap (packedBytes w)).length = w * items.length := by
  rw [List.flatMap, Bytes.length_flatten, List.length_map]
  refine List.forall_mem_map.2 fun v hv => ?_
  cases each v hv with
  | uint => exact Bytes.length_ofNat w _

theorem nesting_uint {w : Nat} {v : Value} (hv : (uint w).Holds v) : v.nesting = 0 := by
  cases hv
  rfl

/-- The items of a sequence have the root over them, if their roots are what they should be. -/
theorem itemsRoot_eq {item : Kind} {rootOf : Value → Except CodecError Digest} {bound : Nat}
    {items : List Value} (hdepth : depth ≤ m) (packed : ∀ w, item = .uint w → bound * w ≤ maxSize)
    (length : items.length ≤ bound) (each : ∀ v ∈ items, item.Holds v)
    (hroot : ∀ v ∈ items, rootOf v = limited m (depth + v.nesting) (item.treeRoot h v)) :
    itemsRoot (.ofHash h) item rootOf bound items =
      limited m (depth + Value.deepest items)
        (itemsTree h item (fun v => item.treeRoot h v) bound items) := by
  obtain ⟨w, rfl⟩ | hitem := item.uint_or_composite
  · -- integers have no levels, and their packed bytes fit the room that is left for them
    have hsize : (items.flatMap (packedBytes w)).length ≤ bound * w := by
      rw [length_flatMap_packedBytes each, Nat.mul_comm]
      exact Nat.mul_le_mul_right w length
    have hmin : Nat.min (bound * w) maxSize = bound * w := Nat.min_eq_left (packed w rfl)
    rw [Value.deepest_eq_zero fun v hv => nesting_uint (each v hv), itemsRoot,
      mapItems_packedItem each, ok_bind, hmin]
    exact (merkleizeBytes_of_le hsize).trans (limited_of_le hdepth _).symm
  · have hlen : (items.map fun v => item.treeRoot h v).length ≤ bound := by
      rwa [List.length_map]
    rw [itemsRoot_of_composite hitem, itemsTree_of_composite h hitem,
      mapItems_limited id hdepth hroot, List.map_id]
    exact limited_then (Nodes.merkleize_of_le h hlen)

/-- The fields of a container have the root over them, if their roots are what they should be. -/
theorem fieldRoots_merkleize {fields : List (Field Kind)} {values : List Value}
    (hdepth : depth ≤ m) (length : fields.length = values.length)
    (hroot : ∀ p ∈ fields.zip values, p.1.kind.root (.ofHash h) m depth p.2 =
      limited m (depth + p.2.nesting) (p.1.kind.treeRoot h p.2)) :
    (fieldRoots (.ofHash h) m fields depth values >>= fun roots =>
      (Nodes.ofHash h).merkleize roots roots.length) =
      limited m (depth + Value.deepest values)
        (Nodes.treeOver h fields.length (treeRoots h fields values)) := by
  have hlen : (treeRoots h fields values).length = fields.length := by
    rw [treeRoots_eq, List.length_map, List.length_zip, length, Nat.min_self]
  rw [fieldRoots_eq, mapItems_limited Prod.snd hdepth hroot, List.map_snd_zip length.ge,
    ← treeRoots_eq]
  refine limited_then ?_
  rw [Nodes.merkleize_of_le h le_rfl, hlen]

/-- **The root of a value that fits is computed as it is defined**, as far as the limit allows. -/
theorem root_eq {k : Kind} {v : Value} (hv : k.Holds v)
    (packed : ∀ k' ∈ k.within, k'.packedSize ≤ maxSize) (hdepth : depth ≤ m) :
    k.root (.ofHash h) m depth v = limited m (depth + v.nesting) (k.treeRoot h v) := by
  induction hv generalizing depth with
  | bytes _ length =>
    rw [root, if_pos length, merkleizeBytes_of_le length.le]
    exact (limited_of_le hdepth _).symm
  | @uint w u _ fits =>
    rw [root, if_pos fits, toDigest_eq]
    exact (limited_of_le hdepth _).symm
  | byteList length =>
    rw [root, if_pos length, merkleizeBytes_of_le length]
    exact (limited_of_le hdepth _).symm
  | @vector item n items _ _ length each ih =>
    obtain ⟨hsize, hitem⟩ := forall_within_vector.1 packed
    rw [root, if_pos length, checkLevel_eq]
    refine limited_enter fun hdepth => ?_
    exact itemsRoot_eq hdepth (mul_le_of_vector hsize) length.le each
      fun v hv => ih v hv hitem hdepth
  | @list item max items _ length each ih =>
    obtain ⟨hsize, hitem⟩ := forall_within_list.1 packed
    rw [root, if_pos length, checkLevel_eq]
    refine limited_enter fun hdepth => ?_
    rw [itemsRoot_eq hdepth (mul_le_of_list hsize) length each
      fun v hv => ih v hv hitem hdepth]
    exact limited_map _ fun root => withLength h root items.length
  | @container name fields values _ length each ih =>
    obtain ⟨-, hfields⟩ := forall_within_container.1 packed
    rw [root, if_pos length.symm, checkLevel_eq]
    refine limited_enter fun hdepth => ?_
    exact fieldRoots_merkleize hdepth length fun p hp =>
      ih p hp (hfields p.1 (List.of_mem_zip hp).1) hdepth

end Kind

namespace Schema

variable {h : Digest → Digest → Digest} {m : Nat}

/-- The root of a record. -/
def treeRoot (h : Digest → Digest → Digest) (s : Schema) (r : Record) : Digest :=
  Nodes.treeOver h s.fields.length (Kind.treeRoots h s.fields r)

theorem rootOver_eq {s : Schema} {r : Record} (valid : s.Valid) (conforms : s.Conforms r)
    (packed : ∀ k ∈ s.kind.within, k.packedSize ≤ maxSize) :
    s.rootOver (.ofHash h) m r = limited m (Record.nesting r) (s.treeRoot h r) := by
  obtain ⟨-, hfields⟩ := Kind.holds_container.1 (holds_iff.2 ⟨valid, conforms⟩)
  obtain ⟨-, hpacked⟩ := Kind.forall_within_container.1 packed
  have hvalid : s.validate = .ok () := valid
  rw [rootOver, hvalid, ok_bind, if_pos hfields.length_eq.symm,
    Kind.fieldRoots_merkleize (Nat.zero_le m) hfields.length_eq, Nat.zero_add]
  · rfl
  · intro p hp
    exact Kind.root_eq (List.forall₂_zip hfields hp) (hpacked p.1 (List.of_mem_zip hp).1)
      (Nat.zero_le m)

theorem sha256Nodes_eq : sha256Nodes = .ofHash Sha256.hashPair := Nodes.tabulated_eq _ 64

/-- **Roots are what they are defined to be.**  The root of a record is computed whenever its
levels are within the limit. -/
theorem root_eq_treeRoot {s : Schema} {r : Record} (valid : s.Valid) (conforms : s.Conforms r)
    (packed : ∀ k ∈ s.kind.within, k.packedSize ≤ maxSize) (levels : Record.nesting r ≤ m) :
    s.root m r = .ok (s.treeRoot Sha256.hashPair r) := by
  rw [root, sha256Nodes_eq, rootOver_eq valid conforms packed, limited_of_le levels]

theorem root_eq_treeRoot_ledger :
    let s : Schema := ⟨"Ledger", [⟨"owner", .bytes 20, .reject⟩,
      ⟨"marks", .list (.uint 2) 40, .reject⟩, ⟨"notes", .list (.byteList 64) 3, .reject⟩]⟩
    let r : Record := [.bytes (List.replicate 20 1), .list [.uint (UInt256.ofNat 300)],
      .list [.bytes [1, 2], .bytes []]]
    s.root 1 r = .ok (s.treeRoot Sha256.hashPair r) := by
  intro s r
  have valid : s.Valid := by
    unfold s
    rfl
  have conforms : s.Conforms r := by
    unfold s r
    rfl
  have packed : ∀ k ∈ s.kind.within, k.packedSize ≤ maxSize := by
    unfold s
    decide
  have levels : Record.nesting r ≤ 1 := by
    unfold r
    decide
  exact root_eq_treeRoot valid conforms packed levels

end Schema

end SszRecord

/-
Chunks.

A byte string is cut into chunks of 32 bytes, and zero bytes fill the last one up.  Seen from the
leaves nothing is cut: byte `j` of leaf `i` is byte `32 * i + j` of the string, or zero behind its
end.

* `getD_packChunks` : the chunks of a string are its leaves;
* `packChunks_injective` : strings of one length are told apart by their chunks;
* `packedItem_eq_ok`, `packed_injective` : packed integers are their bytes, one behind the other.
-/
import Mathlib
import SszRecord.Merkle.Root
import SszRecord.Proofs.Merkle.Perfect
import SszRecord.Proofs.Schema.Fits
import SszRecord.Proofs.UInt256.Bytes

namespace SszRecord

namespace ByteVector

theorem ext_getD {n : Nat} {a b : ByteVector n}
    (h : ∀ j < n, a.bytes.getD j 0 = b.bytes.getD j 0) : a = b :=
  ext (Bytes.eq_of_getD (a.length_bytes.trans b.length_bytes.symm)
    fun j hj => h j (a.length_bytes ▸ hj))

theorem getD_zero (n j : Nat) : (zero n).bytes.getD j 0 = 0 := by
  rw [zero, List.getD_eq_getElem?_getD, List.getElem?_replicate]
  split <;> rfl

theorem getD_padded {n j : Nat} (b : Bytes) (hj : j < n) :
    (padded n b).bytes.getD j 0 = b.getD j 0 := by
  have hzero : (List.replicate (n - b.length) (0 : UInt8)).getD (j - (b.take n).length) 0 = 0 := by
    rw [List.getD_eq_getElem?_getD, List.getElem?_replicate]
    split <;> rfl
  rw [padded]
  by_cases hb : j < b.length
  · have hmin : j < (b.take n).length := by
      rw [List.length_take]
      omega
    rw [List.getD_append _ _ _ _ hmin, List.getD_eq_getElem?_getD, List.getElem?_take_of_lt hj,
      List.getD_eq_getElem?_getD]
  · have hmin : (b.take n).length ≤ j := by
      rw [List.length_take]
      omega
    rw [List.getD_append_right _ _ _ _ hmin, hzero, List.getD_eq_default _ _ (Nat.le_of_not_lt hb)]

end ByteVector

/-- A leaf of a byte string, zero bytes standing in behind its last byte. -/
def chunk (b : Bytes) (i : Nat) : Digest :=
  ⟨List.ofFn fun j : Fin 32 => b.getD (32 * i + j) 0, List.length_ofFn⟩

theorem getD_chunk {b : Bytes} {i j : Nat} (hj : j < 32) :
    (chunk b i).bytes.getD j 0 = b.getD (32 * i + j) 0 := by
  have hlen : j < (chunk b i).bytes.length := by rwa [(chunk b i).length_bytes]
  rw [List.getD_eq_getElem _ _ hlen]
  exact List.getElem_ofFn ..

theorem chunk_nil (i : Nat) : chunk [] i = zeroDigest :=
  ByteVector.ext_getD fun j hj => by rw [getD_chunk hj, List.getD_nil, zeroDigest,
    ByteVector.getD_zero]

theorem padded_take (b : Bytes) : ByteVector.padded 32 (b.take 32) = chunk b 0 :=
  ByteVector.ext_getD fun j hj => by
    rw [ByteVector.getD_padded _ hj, getD_chunk hj, Nat.mul_zero, Nat.zero_add,
      List.getD_eq_getElem?_getD, List.getElem?_take_of_lt hj, List.getD_eq_getElem?_getD]

theorem chunk_drop (b : Bytes) (i : Nat) : chunk (b.drop 32) i = chunk b (i + 1) :=
  ByteVector.ext_getD fun j hj => by
    rw [getD_chunk hj, getD_chunk hj, List.getD_eq_getElem?_getD, List.getElem?_drop,
      List.getD_eq_getElem?_getD, Nat.mul_succ, ← Nat.add_assoc, Nat.add_comm 32]

theorem getD_pieces {count : Nat} {b : Bytes} (h : b.length ≤ 32 * count) (i : Nat) :
    ((Bytes.pieces 32 count b).map (ByteVector.padded 32)).getD i zeroDigest = chunk b i := by
  induction count generalizing b i with
  | zero =>
    obtain rfl : b = [] := List.eq_nil_of_length_eq_zero (Nat.le_zero.1 h)
    rw [chunk_nil]
    rfl
  | succ count ih =>
    rw [Bytes.pieces, List.map_cons]
    cases i with
    | zero => rw [List.getD_cons_zero, padded_take]
    | succ i =>
      rw [List.getD_cons_succ, ih (by rw [List.length_drop]; omega), chunk_drop]

/-- The chunks of a byte string are its leaves. -/
theorem getD_packChunks (b : Bytes) (i : Nat) : (packChunks b).getD i zeroDigest = chunk b i :=
  getD_pieces (by omega) i

theorem length_packChunks (b : Bytes) : (packChunks b).length = chunkCount b.length := by
  rw [packChunks, List.length_map, Bytes.length_pieces, chunkCount]

/-- **Byte strings of one length are told apart by their chunks.** -/
theorem packChunks_injective {a b : Bytes} (length : a.length = b.length)
    (h : packChunks a = packChunks b) : a = b := by
  refine Bytes.eq_of_getD length fun j _ => ?_
  -- byte `j` of the string is byte `j % 32` of chunk `j / 32`
  have hj : j % 32 < 32 := Nat.mod_lt j (by decide)
  have hchunk : chunk a (j / 32) = chunk b (j / 32) := by
    rw [← getD_packChunks, ← getD_packChunks, h]
  have := getD_chunk (b := a) (i := j / 32) hj
  rwa [hchunk, getD_chunk hj, Nat.div_add_mod, eq_comm] at this

theorem chunkCount_mono {m n : Nat} (h : m ≤ n) : chunkCount m ≤ chunkCount n :=
  Nat.div_le_div_right (Nat.add_le_add_right h 31)

theorem chunkCount_eq (n : Nat) : chunkCount n = n ⌈/⌉ 32 := by
  rw [Nat.ceilDiv_eq_add_pred_div]
  rfl

/-! ### Integers -/

theorem toDigest_eq (u : UInt256) : u.toDigest = ByteVector.ofNat 32 u.toNat :=
  ByteVector.ext u.toBytes_eq

theorem toDigest_injective {u u' : UInt256} (h : u.toDigest = u'.toDigest) : u = u' := by
  rw [toDigest_eq, toDigest_eq] at h
  have hbytes : Bytes.ofNat 32 u.toNat = Bytes.ofNat 32 u'.toNat := congrArg ByteVector.bytes h
  exact UInt256.toNat_inj.1 (Bytes.ofNat_inj u.toNat_lt u'.toNat_lt hbytes)

theorem packedItem_eq_ok {w : Nat} (hw : w ≤ 32) {v : Value} {b : Bytes} :
    packedItem w v = .ok b ↔
      ∃ u : UInt256, v = .uint u ∧ u.FitsWidth w ∧ Bytes.ofNat w u.toNat = b := by
  cases v with
  | uint u =>
    rw [packedItem, demand_eq_ok, UInt256.take_toBytes hw, Except.ok.injEq]
    constructor
    · rintro ⟨hu, hb⟩
      exact ⟨u, rfl, hu, hb⟩
    · rintro ⟨_, ⟨⟩, hu, hb⟩
      exact ⟨hu, hb⟩
  | _ => exact ⟨nofun, nofun⟩

theorem packedItem_injective {w : Nat} (hw : w ≤ 32) {v v' : Value} {b : Bytes}
    (h : packedItem w v = .ok b) (h' : packedItem w v' = .ok b) : v = v' := by
  obtain ⟨u, rfl, hu, rfl⟩ := (packedItem_eq_ok hw).1 h
  obtain ⟨u', rfl, hu', hb⟩ := (packedItem_eq_ok hw).1 h'
  rw [UInt256.fitsWidth_iff] at hu hu'
  rw [UInt256.toNat_inj.1 (Bytes.ofNat_inj hu hu' hb.symm)]

theorem length_of_packed {w : Nat} (hw : w ≤ 32) {items : List Value} {bs : List Bytes}
    (h : mapItems (packedItem w) items = .ok bs) :
    bs.length = items.length ∧ ∀ b ∈ bs, b.length = w := by
  rw [mapItems_eq_ok] at h
  refine ⟨h.length_eq.symm, ?_⟩
  induction h with
  | nil => exact List.forall_mem_nil _
  | cons hb _ ih =>
    obtain ⟨u, -, -, rfl⟩ := (packedItem_eq_ok hw).1 hb
    exact List.forall_mem_cons.2 ⟨Bytes.length_ofNat w _, ih⟩

/-- **Integers of one width are told apart by their packed bytes.** -/
theorem packed_injective {w : Nat} (hw : w ≤ 32) {items items' : List Value} {bs bs' : List Bytes}
    (length : items.length = items'.length) (h : mapItems (packedItem w) items = .ok bs)
    (h' : mapItems (packedItem w) items' = .ok bs') (same : bs.flatten = bs'.flatten) :
    items = items' := by
  obtain ⟨hcount, hsize⟩ := length_of_packed hw h
  obtain ⟨hcount', hsize'⟩ := length_of_packed hw h'
  have hbs : bs = bs' := by
    rw [← Bytes.pieces_flatten hsize, ← Bytes.pieces_flatten hsize', same, hcount, hcount', length]
  subst hbs
  refine mapItems_injective (g := id) h h' rfl fun _ _ _ _ b _ b' _ hb hb' same => ?_
  rw [id, id] at same
  exact packedItem_injective hw hb (same ▸ hb')

end SszRecord

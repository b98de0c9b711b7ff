/-
Roots bind records.

Let the hash function be injective on the pairs that are hashed for two roots.  Then the two
computations can be followed down side by side: equal roots have equal subtrees, and levels of one
length with equal roots are equal (`climb_injective`).  That levels have one length is fixed by the
kind of a value or by the length that is hashed with its root, and so equal roots have equal values
(`Kind.root_injective`).

Hence two different records with one root show two different pairs with one hash
(`Schema.collides_of_root_eq`).
-/
import Mathlib
import SszRecord.Proofs.Merkle.Chunks
import SszRecord.Proofs.Merkle.Traced
import SszRecord.Proofs.Schema.Within

namespace SszRecord

/-- Two different pairs of a list have the same hash. -/
def Collides (h : Digest → Digest → Digest) (pairs : List (Digest × Digest)) : Prop :=
  ∃ p ∈ pairs, ∃ q ∈ pairs, p ≠ q ∧ h p.1 p.2 = h q.1 q.2

/-- The pairs of a trace belong to a set. -/
def Traced.Within (pairs : Set (Digest × Digest)) (t : Traced) : Prop := ∀ p ∈ t.joins, p ∈ pairs

/-- The roots of an operation bind what it is applied to, as far as the traced pairs belong to a
set. -/
def Binds {β : Type} (pairs : Set (Digest × Digest)) (rootOf : β → Except CodecError Traced) :
    Prop :=
  ∀ b b' t t', rootOf b = .ok t → rootOf b' = .ok t' → t.Within pairs → t'.Within pairs →
    t.digest = t'.digest → b = b'

variable {h : Digest → Digest → Digest} {pairs : Set (Digest × Digest)}

namespace Nodes

theorem within_join {a b : Traced} :
    ((traced h).join a b).Within pairs ↔
      (a.digest, b.digest) ∈ pairs ∧ a.Within pairs ∧ b.Within pairs := by
  simp only [Traced.Within, traced, List.forall_mem_cons, List.forall_mem_append]

theorem within_pairUp {height : Nat} {level : List Traced}
    (hw : ∀ t ∈ (traced h).pairUp height level, t.Within pairs) : ∀ t ∈ level, t.Within pairs := by
  induction level using pairUp.induct with
  | case1 a b rest ih =>
    rw [pairUp, List.forall_mem_cons, within_join] at hw
    exact List.forall_mem_cons.2 ⟨hw.1.2.1, List.forall_mem_cons.2 ⟨hw.1.2.2, ih hw.2⟩⟩
  | case2 a =>
    rw [pairUp, List.forall_mem_singleton, within_join] at hw
    exact List.forall_mem_singleton.2 hw.2.1
  | case3 => exact List.forall_mem_nil _

/-- What is hashed for the members of a level is hashed for its root. -/
theorem within_climb {height depth : Nat} {level : List Traced} (room : level.length ≤ 2 ^ depth)
    (hw : ((traced h).climb height depth level).Within pairs) : ∀ t ∈ level, t.Within pairs := by
  induction depth generalizing height level with
  | zero =>
    cases level with
    | nil => exact List.forall_mem_nil _
    | cons a level =>
      obtain rfl : level = [] :=
        List.eq_nil_of_length_eq_zero (Nat.le_zero.1 (Nat.le_of_succ_le_succ room))
      exact List.forall_mem_singleton.2 hw
  | succ depth ih =>
    -- with room for all of a level, no node of the level above is dropped
    refine within_pairUp (ih ?_ hw)
    rw [length_pairUp]
    rw [Nat.pow_succ] at room
    omega

theorem within_merkleize {level : List Traced} {limit : Nat} {t : Traced}
    (ht : (traced h).merkleize level limit = .ok t) (hw : t.Within pairs) :
    ∀ a ∈ level, a.Within pairs := by
  obtain ⟨hle, rfl⟩ := merkleize_eq_ok.1 ht
  exact within_climb (hle.trans (le_two_pow_treeDepth limit)) hw

/-! ### Following two computations down -/

variable (inj : pairs.InjOn fun p => h p.1 p.2)
include inj

theorem join_injective {a b a' b' : Traced} (hw : ((traced h).join a b).Within pairs)
    (hw' : ((traced h).join a' b').Within pairs)
    (same : ((traced h).join a b).digest = ((traced h).join a' b').digest) :
    a.digest = a'.digest ∧ b.digest = b'.digest :=
  Prod.mk.inj (inj (within_join.1 hw).1 (within_join.1 hw').1 same)

theorem pairUp_injective {height : Nat} {level level' : List Traced}
    (length : level.length = level'.length)
    (hw : ∀ t ∈ (traced h).pairUp height level, t.Within pairs)
    (hw' : ∀ t ∈ (traced h).pairUp height level', t.Within pairs)
    (same : ((traced h).pairUp height level).map Traced.digest =
      ((traced h).pairUp height level').map Traced.digest) :
    level.map Traced.digest = level'.map Traced.digest := by
  induction level using pairUp.induct generalizing level' with
  | case1 a b rest ih =>
    obtain ⟨a', b', rest', rfl⟩ : ∃ a' b' rest', level' = a' :: b' :: rest' := by
      rcases level' with _ | ⟨a', _ | ⟨b', rest'⟩⟩
      · cases length
      · cases length
      · exact ⟨a', b', rest', rfl⟩
    rw [pairUp, List.forall_mem_cons] at hw hw'
    rw [pairUp, pairUp, List.map_cons, List.map_cons, List.cons.injEq] at same
    obtain ⟨ha, hb⟩ := join_injective inj hw.1 hw'.1 same.1
    have hrest := ih (Nat.succ.inj (Nat.succ.inj length)) hw.2 hw'.2 same.2
    rw [List.map_cons, List.map_cons, List.map_cons, List.map_cons, ha, hb, hrest]
  | case2 a =>
    obtain ⟨a', rfl⟩ := List.length_eq_one_iff.1 length.symm
    rw [pairUp, List.forall_mem_singleton] at hw hw'
    rw [pairUp, pairUp, List.map_singleton, List.map_singleton, List.cons.injEq] at same
    rw [List.map_singleton, List.map_singleton, (join_injective inj hw hw' same.1).1]
  | case3 =>
    rw [List.eq_nil_of_length_eq_zero length.symm]

/-- Levels of one length that have equal roots are equal. -/
theorem climb_injective {height depth : Nat} {level level' : List Traced}
    (room : level.length ≤ 2 ^ depth) (length : level.length = level'.length)
    (hw : ((traced h).climb height depth level).Within pairs)
    (hw' : ((traced h).climb height depth level').Within pairs)
    (same : ((traced h).climb height depth level).digest =
      ((traced h).climb height depth level').digest) :
    level.map Traced.digest = level'.map Traced.digest := by
  induction depth generalizing height level level' with
  | zero =>
    cases level with
    | nil => rw [List.eq_nil_of_length_eq_zero length.symm]
    | cons a level =>
      obtain rfl : level = [] :=
        List.eq_nil_of_length_eq_zero (Nat.le_zero.1 (Nat.le_of_succ_le_succ room))
      obtain ⟨a', rfl⟩ := List.length_eq_one_iff.1 length.symm
      rw [List.map_singleton, List.map_singleton]
      exact congrArg (fun d => [d]) same
  | succ depth ih =>
    have hroom : ((traced h).pairUp height level).length ≤ 2 ^ depth := by
      rw [length_pairUp]
      rw [Nat.pow_succ] at room
      omega
    have hlen : ((traced h).pairUp height level).length =
        ((traced h).pairUp height level').length := by
      rw [length_pairUp, length_pairUp, length]
    exact pairUp_injective inj length (within_climb hroom hw)
      (within_climb (hlen ▸ hroom) hw') (ih hroom hlen hw hw' same)

theorem merkleize_injective {level level' : List Traced} {limit : Nat} {t t' : Traced}
    (length : level.length = level'.length) (ht : (traced h).merkleize level limit = .ok t)
    (ht' : (traced h).merkleize level' limit = .ok t') (hw : t.Within pairs)
    (hw' : t'.Within pairs) (same : t.digest = t'.digest) :
    level.map Traced.digest = level'.map Traced.digest := by
  obtain ⟨hle, rfl⟩ := merkleize_eq_ok.1 ht
  obtain ⟨-, rfl⟩ := merkleize_eq_ok.1 ht'
  exact climb_injective inj (hle.trans (le_two_pow_treeDepth limit)) length hw hw' same

theorem merkleizeBytes_injective {b b' : Bytes} {max : Nat} {t t' : Traced}
    (length : b.length = b'.length) (ht : (traced h).merkleizeBytes b max = .ok t)
    (ht' : (traced h).merkleizeBytes b' max = .ok t') (hw : t.Within pairs)
    (hw' : t'.Within pairs) (same : t.digest = t'.digest) : b = b' := by
  have hleaf : Traced.digest ∘ (traced h).leaf = id := rfl
  have hlen : ((packChunks b).map (traced h).leaf).length =
      ((packChunks b').map (traced h).leaf).length := by
    rw [List.length_map, List.length_map, length_packChunks, length_packChunks, length]
  have hmap := merkleize_injective inj hlen ht ht' hw hw' same
  rw [List.map_map, List.map_map, hleaf, List.map_id, List.map_id] at hmap
  exact packChunks_injective length hmap

/-- Lengths of 64 bits are bound by the roots that they are joined with. -/
theorem mixInLength_injective {root root' : Traced} {n n' : Nat} (hn : n ≤ maxSize)
    (hn' : n' ≤ maxSize) (hw : ((traced h).mixInLength root n).Within pairs)
    (hw' : ((traced h).mixInLength root' n').Within pairs)
    (same : ((traced h).mixInLength root n).digest =
      ((traced h).mixInLength root' n').digest) :
    n = n' ∧ root.Within pairs ∧ root'.Within pairs ∧ root.digest = root'.digest := by
  have hsize : maxSize < 256 ^ 32 := by decide
  obtain ⟨hroot, hlength⟩ := join_injective inj hw hw' same
  have hbytes : Bytes.ofNat 32 n = Bytes.ofNat 32 n' := congrArg ByteVector.bytes hlength
  exact ⟨Bytes.ofNat_inj (hn.trans_lt hsize) (hn'.trans_lt hsize) hbytes, (within_join.1 hw).2.1,
    (within_join.1 hw').2.1, hroot⟩

end Nodes

namespace Kind

variable {m depth : Nat}

theorem fieldRoots_injective {fields : List (Field Kind)}
    (each : ∀ f ∈ fields, Binds pairs fun v => f.kind.root (.traced h) m depth v)
    {values values' : List Value} {ts ts' : List Traced} (length : values.length = fields.length)
    (length' : values'.length = fields.length)
    (ht : fieldRoots (.traced h) m fields depth values = .ok ts)
    (ht' : fieldRoots (.traced h) m fields depth values' = .ok ts')
    (hw : ∀ t ∈ ts, t.Within pairs) (hw' : ∀ t ∈ ts', t.Within pairs)
    (same : ts.map Traced.digest = ts'.map Traced.digest) : values = values' := by
  induction fields generalizing values values' ts ts' with
  | nil => rw [List.eq_nil_of_length_eq_zero length, List.eq_nil_of_length_eq_zero length']
  | cons f fields ih =>
    obtain ⟨hf, hfields⟩ := List.forall_mem_cons.1 each
    obtain ⟨v, values, rfl⟩ := List.exists_cons_of_length_eq_add_one length
    obtain ⟨v', values', rfl⟩ := List.exists_cons_of_length_eq_add_one length'
    simp only [fieldRoots, bind_eq_ok, pure_eq_ok, Except.ok.injEq] at ht ht'
    obtain ⟨t, hv, ts, hvs, rfl⟩ := ht
    obtain ⟨t', hv', ts', hvs', rfl⟩ := ht'
    rw [List.forall_mem_cons] at hw hw'
    rw [List.map_cons, List.map_cons, List.cons.injEq] at same
    rw [hf v v' t t' hv hv' hw.1 hw'.1 same.1, ih hfields (Nat.succ.inj length)
      (Nat.succ.inj length') hvs hvs' hw.2 hw'.2 same.2]

variable (inj : pairs.InjOn fun p => h p.1 p.2)
include inj

theorem itemsRoot_injective {item : Kind} (sound : item.Sound)
    {rootOf : Value → Except CodecError Traced} (each : Binds pairs rootOf) {bound : Nat}
    {items items' : List Value} {t t' : Traced} (length : items.length = items'.length)
    (ht : itemsRoot (.traced h) item rootOf bound items = .ok t)
    (ht' : itemsRoot (.traced h) item rootOf bound items' = .ok t') (hw : t.Within pairs)
    (hw' : t'.Within pairs) (same : t.digest = t'.digest) : items = items' := by
  obtain ⟨w, rfl⟩ | hitem := item.uint_or_composite
  · have hwidth : w ≤ 32 := by
      cases sound with
      | uint width => exact width_le width
    rw [itemsRoot, bind_eq_ok] at ht ht'
    obtain ⟨bs, hbs, ht⟩ := ht
    obtain ⟨bs', hbs', ht'⟩ := ht'
    obtain ⟨hcount, hsize⟩ := length_of_packed hwidth hbs
    obtain ⟨hcount', hsize'⟩ := length_of_packed hwidth hbs'
    -- as many integers of one width take as many bytes, and so as many chunks
    have hlen : bs.flatten.length = bs'.flatten.length := by
      rw [Bytes.length_flatten hsize, Bytes.length_flatten hsize', hcount, hcount', length]
    exact packed_injective hwidth length hbs hbs'
      (Nodes.merkleizeBytes_injective inj hlen ht ht' hw hw' same)
  · rw [itemsRoot_of_composite hitem, bind_eq_ok] at ht ht'
    obtain ⟨ts, hts, ht⟩ := ht
    obtain ⟨ts', hts', ht'⟩ := ht'
    have hlen : ts.length = ts'.length := by
      rw [← (mapItems_eq_ok.1 hts).length_eq, ← (mapItems_eq_ok.1 hts').length_eq, length]
    have hmap := Nodes.merkleize_injective inj hlen ht ht' hw hw' same
    exact mapItems_injective hts hts' hmap fun v _ v' _ a ha a' ha' hv hv' =>
      each v v' a a' hv hv' (Nodes.within_merkleize ht hw a ha)
        (Nodes.within_merkleize ht' hw' a' ha')

/-- The fields of a container are bound by the root over them. -/
theorem container_injective {fields : List (Field Kind)}
    (each : ∀ f ∈ fields, Binds pairs fun v => f.kind.root (.traced h) m depth v)
    {values values' : List Value} {ts ts' : List Traced} {t t' : Traced}
    (length : values.length = fields.length) (length' : values'.length = fields.length)
    (hts : fieldRoots (.traced h) m fields depth values = .ok ts)
    (hts' : fieldRoots (.traced h) m fields depth values' = .ok ts')
    (ht : (Nodes.traced h).merkleize ts ts.length = .ok t)
    (ht' : (Nodes.traced h).merkleize ts' ts'.length = .ok t') (hw : t.Within pairs)
    (hw' : t'.Within pairs) (same : t.digest = t'.digest) : values = values' := by
  have hlen : ts.length = ts'.length := by
    have hts := hts
    have hts' := hts'
    rw [fieldRoots_eq, mapItems_eq_ok] at hts hts'
    rw [← hts.length_eq, ← hts'.length_eq, List.length_zip, List.length_zip, length, length']
  have hmap := Nodes.merkleize_injective inj hlen ht (hlen ▸ ht') hw hw' same
  exact fieldRoots_injective each length length' hts hts' (Nodes.within_merkleize ht hw)
    (Nodes.within_merkleize ht' hw') hmap

/-- **Roots bind values**, as long as no two pairs that are hashed for them collide. -/
theorem root_injective {k : Kind} (sound : k.Sound)
    (bounds : ∀ k' ∈ k.within, k'.bound ≤ maxSize) :
    Binds pairs fun v => k.root (.traced h) m depth v := by
  induction sound generalizing depth with
  | bytes =>
    intro v v' t t' ht ht' hw hw' same
    obtain ⟨b, rfl, length, ht⟩ := root_bytes_eq_ok.1 ht
    obtain ⟨b', rfl, length', ht'⟩ := root_bytes_eq_ok.1 ht'
    rw [Nodes.merkleizeBytes_injective inj (length.trans length'.symm) ht ht' hw hw' same]
  | uint =>
    intro v v' t t' ht ht' hw hw' same
    obtain ⟨u, rfl, -, rfl⟩ := root_uint_eq_ok.1 ht
    obtain ⟨u', rfl, -, rfl⟩ := root_uint_eq_ok.1 ht'
    rw [toDigest_injective same]
  | byteList =>
    intro v v' t t' ht ht' hw hw' same
    obtain ⟨b, rfl, length, root, hroot, rfl⟩ := root_byteList_eq_ok.1 ht
    obtain ⟨b', rfl, length', root', hroot', rfl⟩ := root_byteList_eq_ok.1 ht'
    have hmax := bounds _ (self_mem_within _)
    obtain ⟨hlen, hw, hw', same⟩ :=
      Nodes.mixInLength_injective inj (length.trans hmax) (length'.trans hmax) hw hw' same
    rw [Nodes.merkleizeBytes_injective inj hlen hroot hroot' hw hw' same]
  | vector _ sound ih =>
    intro v v' t t' ht ht' hw hw' same
    obtain ⟨items, rfl, length, -, ht⟩ := root_vector_eq_ok.1 ht
    obtain ⟨items', rfl, length', -, ht'⟩ := root_vector_eq_ok.1 ht'
    obtain ⟨-, hitem⟩ := forall_within_vector.1 bounds
    rw [itemsRoot_injective inj sound (ih hitem) (length.trans length'.symm) ht ht' hw hw' same]
  | list sound ih =>
    intro v v' t t' ht ht' hw hw' same
    obtain ⟨items, rfl, length, -, root, hroot, rfl⟩ := root_list_eq_ok.1 ht
    obtain ⟨items', rfl, length', -, root', hroot', rfl⟩ := root_list_eq_ok.1 ht'
    obtain ⟨hmax, hitem⟩ := forall_within_list.1 bounds
    obtain ⟨hlen, hw, hw', same⟩ :=
      Nodes.mixInLength_injective inj (length.trans hmax) (length'.trans hmax) hw hw' same
    rw [itemsRoot_injective inj sound (ih hitem) hlen hroot hroot' hw hw' same]
  | container _ _ ih =>
    intro v v' t t' ht ht' hw hw' same
    obtain ⟨values, rfl, -, length, ts, hts, ht⟩ := root_container_eq_ok.1 ht
    obtain ⟨values', rfl, -, length', ts', hts', ht'⟩ := root_container_eq_ok.1 ht'
    obtain ⟨-, hfields⟩ := forall_within_container.1 bounds
    rw [container_injective inj (fun f hf => ih f hf (hfields f hf)) length length' hts hts' ht
      ht' hw hw' same]

end Kind

namespace Schema

/-- **A root binds its record.**  Two different records with one root exhibit a collision of the
hash function among the pairs that are hashed for the two roots. -/
theorem collides_of_root_eq {s : Schema} {m : Nat} {r r' : Record} {d : Digest}
    (bounds : ∀ k ∈ s.kind.within, k.bound ≤ maxSize)
    (hroot : s.rootOver (.ofHash h) m r = .ok d) (hroot' : s.rootOver (.ofHash h) m r' = .ok d)
    (different : r ≠ r') : Collides h (s.joins h m r ++ s.joins h m r') := by
  by_contra hnone
  -- without a collision the hash function is injective on what is hashed for the two roots
  let pairs : Set (Digest × Digest) := { p | p ∈ s.joins h m r ++ s.joins h m r' }
  have inj : pairs.InjOn fun p => h p.1 p.2 := by
    intro p hp q hq same
    by_contra hne
    exact hnone ⟨p, hp, q, hq, hne, same⟩
  obtain ⟨t, ht, hd, hjoins⟩ := rootOver_ofHash_eq_ok.1 hroot
  obtain ⟨t', ht', hd', hjoins'⟩ := rootOver_ofHash_eq_ok.1 hroot'
  have hw : t.Within pairs := fun p hp => List.mem_append_left _ (hjoins ▸ hp)
  have hw' : t'.Within pairs := fun p hp => List.mem_append_right _ (hjoins' ▸ hp)
  obtain ⟨valid, length, ts, hts, ht⟩ := rootOver_eq_ok.1 ht
  obtain ⟨-, length', ts', hts', ht'⟩ := rootOver_eq_ok.1 ht'
  obtain ⟨-, sound⟩ := Kind.sound_container.1 (valid_iff.1 valid)
  obtain ⟨-, hfields⟩ := Kind.forall_within_container.1 bounds
  refine different (Kind.container_injective inj (fun f hf => ?_) length length' hts hts' ht ht'
    hw hw' (hd.trans hd'.symm))
  exact Kind.root_injective inj (sound f hf) (hfields f hf)

theorem collides_of_root_eq_memo :
    let h : Digest → Digest → Digest := fun left _ => left
    let s : Schema := ⟨"Memo", [⟨"text", .byteList 40, .reject⟩,
      ⟨"marks", .list (.uint 2) 4, .reject⟩]⟩
    let r : Record := [.bytes [], .list []]
    let r' : Record := [.bytes [0], .list [.uint (UInt256.ofNat 5)]]
    Collides h (s.joins h 1 r ++ s.joins h 1 r') := by
  intro h s r r'
  have bounds : ∀ k ∈ s.kind.within, k.bound ≤ maxSize := by
    unfold s
    decide
  have hroot : s.rootOver (.ofHash h) 1 r = .ok zeroDigest := by
    unfold s r h
    rfl
  have hroot' : s.rootOver (.ofHash h) 1 r' = .ok zeroDigest := by
    unfold s r' h
    rfl
  have different : r ≠ r' := by
    unfold r r'
    simp
  exact collides_of_root_eq bounds hroot hroot' different

end Schema

end SszRecord

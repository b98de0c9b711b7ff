/-
Summaries.

A record is summarised by putting roots in the place of some of its values.  A digest is a byte
array of one chunk, so it is its own root, and the summary has the root of the whole record.  This
is what lets a header stand for a payload.

* `Kind.root_digest` : a digest is its own root;
* `Schema.root_summary` : a summary has the root of its record, whatever that is;
* `Schema.root_eq_of_kinds` : a root depends on the kinds of the fields, not on their keys;
* `Beacon.root_of_summary` : records are summarised by fields with roots, and payloads by headers.
-/
import Mathlib
import SszRecord.Beacon.Payload
import SszRecord.Proofs.Merkle.Conformance
import SszRecord.Proofs.Merkle.Definition

namespace SszRecord

namespace Kind

section Digests

variable {α : Type} {nodes : Nodes α} {m depth : Nat}

theorem packChunks_digest (d : Digest) : packChunks d.bytes = [d] := by
  have hlen : d.bytes.length = 32 := d.length_bytes
  have hd : ByteVector.padded 32 (d.bytes.take 32) = d := by
    rw [padded_take]
    refine ByteVector.ext_getD fun j hj => ?_
    rw [getD_chunk hj, Nat.mul_zero, Nat.zero_add]
  rw [packChunks, hlen]
  exact congrArg (fun c => [c]) hd

/-- **A digest is its own root.** -/
theorem root_digest (d : Digest) :
    (bytes 32).root nodes m depth (.bytes d.bytes) = .ok (nodes.leaf d) := by
  rw [root, if_pos d.length_bytes, Nodes.merkleizeBytes, packChunks_digest]
  rfl

end Digests

/-! ### Fields -/

/-- Fields, the first of them at index `i`; those at some indices hold digests. -/
def summaryFields (I : Finset Nat) : (i : Nat) → List (Field Kind) → List (Field Kind)
  | _, [] => []
  | i, f :: fields =>
    (if i ∈ I then { f with kind := .bytes 32 } else f) :: summaryFields I (i + 1) fields

/-- The value of the field at index `i`, replaced by its root if this is one of some indices. -/
def summaryValue (I : Finset Nat) (i : Nat) (k : Kind) (v : Value) : Except CodecError Value :=
  if i ∈ I then do return .bytes (← k.valueRoot v).bytes else .ok v

/-- The values of fields, the first of them at index `i`; at some indices they are replaced by their
roots. -/
def summaryValues (I : Finset Nat) :
    (i : Nat) → List (Field Kind) → List Value → Except CodecError (List Value)
  | i, ⟨_, kind, _⟩ :: fields, v :: values => do
    let v' ← summaryValue I i kind v
    let values' ← summaryValues I (i + 1) fields values
    return v' :: values'
  | _, _, values => .ok values

theorem summaryValue_of_mem {I : Finset Nat} {i : Nat} (hi : i ∈ I) {k : Kind} {v v' : Value} :
    summaryValue I i k v = .ok v' ↔ ∃ d : Digest, k.valueRoot v = .ok d ∧ .bytes d.bytes = v' := by
  rw [summaryValue, if_pos hi]
  simp only [bind_eq_ok, pure_eq_ok, Except.ok.injEq]

theorem summaryValue_of_not_mem {I : Finset Nat} {i : Nat} (hi : i ∉ I) (k : Kind) (v : Value) :
    summaryValue I i k v = .ok v := if_neg hi

theorem summaryValues_cons {I : Finset Nat} {i : Nat} {f : Field Kind} {fields : List (Field Kind)}
    {v : Value} {values values' : List Value} :
    summaryValues I i (f :: fields) (v :: values) = .ok values' ↔
      ∃ v', summaryValue I i f.kind v = .ok v' ∧
        ∃ rest, summaryValues I (i + 1) fields values = .ok rest ∧ v' :: rest = values' := by
  simp only [summaryValues, bind_eq_ok, pure_eq_ok, Except.ok.injEq]

theorem length_summaryFields (I : Finset Nat) (i : Nat) (fields : List (Field Kind)) :
    (summaryFields I i fields).length = fields.length := by
  induction fields generalizing i with
  | nil => rfl
  | cons f fields ih => rw [summaryFields, List.length_cons, ih, List.length_cons]

theorem length_summaryValues {I : Finset Nat} {i : Nat} {fields : List (Field Kind)}
    {values values' : List Value} (h : summaryValues I i fields values = .ok values') :
    values'.length = values.length := by
  induction fields generalizing i values values' with
  | nil =>
    cases h
    rfl
  | cons f fields ih =>
    cases values with
    | nil =>
      cases h
      rfl
    | cons v values =>
      obtain ⟨v', -, rest, hrest, rfl⟩ := summaryValues_cons.1 h
      rw [List.length_cons, ih hrest, List.length_cons]

theorem sound_summaryFields {I : Finset Nat} {fields : List (Field Kind)}
    (h : ∀ f ∈ fields, f.kind.Sound) (i : Nat) : ∀ f ∈ summaryFields I i fields, f.kind.Sound := by
  induction fields generalizing i with
  | nil => exact List.forall_mem_nil _
  | cons f fields ih =>
    obtain ⟨hf, hfields⟩ := List.forall_mem_cons.1 h
    rw [summaryFields]
    refine List.forall_mem_cons.2 ⟨?_, ih hfields (i + 1)⟩
    split
    · exact .bytes (by decide)
    · exact hf

/-- The roots of fields are the same in a summary of them. -/
theorem fieldRoots_summary {I : Finset Nat} {i : Nat} {fields : List (Field Kind)}
    {values values' : List Value} (h : summaryValues I i fields values = .ok values') :
    fieldRoots sha256Nodes defaultMaxDepth (summaryFields I i fields) 0 values' =
      fieldRoots sha256Nodes defaultMaxDepth fields 0 values := by
  induction fields generalizing i values values' with
  | nil =>
    cases h
    rfl
  | cons f fields ih =>
    cases values with
    | nil =>
      cases h
      rfl
    | cons v values =>
      obtain ⟨v', hv', rest, hrest, rfl⟩ := summaryValues_cons.1 h
      rw [summaryFields, fieldRoots, fieldRoots, ih hrest]
      by_cases hi : i ∈ I
      · obtain ⟨d, hd, rfl⟩ := (summaryValue_of_mem hi).1 hv'
        -- the root was computed at level zero, where the fields of a record are
        rw [valueRoot] at hd
        rw [if_pos hi, root_digest, hd]
        rfl
      · rw [summaryValue_of_not_mem hi] at hv'
        cases hv'
        rw [if_neg hi]

/-- Whatever has roots has a summary. -/
theorem exists_summaryValues (I : Finset Nat) {i : Nat} {fields : List (Field Kind)}
    {values : List Value} {roots : List Digest}
    (h : fieldRoots sha256Nodes defaultMaxDepth fields 0 values = .ok roots) :
    ∃ values', summaryValues I i fields values = .ok values' := by
  induction fields generalizing i values roots with
  | nil => exact ⟨values, rfl⟩
  | cons f fields ih =>
    cases values with
    | nil => exact ⟨[], rfl⟩
    | cons v values =>
      simp only [fieldRoots, bind_eq_ok] at h
      obtain ⟨d, hd, rest, hrest, -⟩ := h
      obtain ⟨values', hvalues'⟩ := ih hrest
      have hv : ∃ v', summaryValue I i f.kind v = .ok v' := by
        by_cases hi : i ∈ I
        · exact ⟨_, (summaryValue_of_mem hi).2 ⟨d, hd, rfl⟩⟩
        · exact ⟨v, summaryValue_of_not_mem hi f.kind v⟩
      obtain ⟨v', hv'⟩ := hv
      exact ⟨_, summaryValues_cons.2 ⟨v', hv', values', hvalues', rfl⟩⟩

end Kind

namespace Schema

/-! ### Records -/

/-- A schema with digests in the place of the fields at some indices. -/
def summary (s : Schema) (I : Finset Nat) : Schema :=
  { s with fields := Kind.summaryFields I 0 s.fields }

/-- A record with roots in the place of the values at some indices. -/
def summaryRecord (s : Schema) (I : Finset Nat) (r : Record) : Except CodecError Record :=
  Kind.summaryValues I 0 s.fields r

variable {s : Schema} {r r' : Record}

theorem valid_summary (valid : s.Valid) (I : Finset Nat) : (s.summary I).Valid := by
  obtain ⟨nonempty, sound⟩ := Kind.sound_container.1 (valid_iff.1 valid)
  refine valid_iff.2 (.container ?_ (Kind.sound_summaryFields sound 0))
  rw [summary, ← List.length_pos_iff, Kind.length_summaryFields]
  exact List.length_pos_of_ne_nil nonempty

/-- **A summary has the root of its record**, or the same reason to have none. -/
theorem root_summary (valid : s.Valid) {I : Finset Nat} (h : s.summaryRecord I r = .ok r') :
    (s.summary I).root defaultMaxDepth r' = s.root defaultMaxDepth r := by
  have hvalid : s.validate = .ok () := valid
  have hvalid' : (s.summary I).validate = .ok () := valid_summary valid I
  have hvalues : r'.length = r.length := Kind.length_summaryValues h
  have hfields : (s.summary I).fields.length = s.fields.length :=
    Kind.length_summaryFields I 0 s.fields
  rw [root, root, rootOver, rootOver, hvalid, hvalid', ok_bind, ok_bind, hvalues, hfields]
  rw [show Kind.fieldRoots sha256Nodes defaultMaxDepth (s.summary I).fields 0 r' = _ from
    Kind.fieldRoots_summary h]
  rfl

/-- A root depends on the kinds of the fields and not on names and keys. -/
theorem root_eq_of_kinds {s' : Schema} (valid : s.Valid) (valid' : s'.Valid)
    (kinds : s'.fields.map Field.kind = s.fields.map Field.kind)
    (length : r.length = s.fields.length) (m : Nat) : s'.root m r = s.root m r := by
  have hvalid : s.validate = .ok () := valid
  have hvalid' : s'.validate = .ok () := valid'
  have hlen : r.length = s'.fields.length := by
    have := congrArg List.length kinds
    rw [List.length_map, List.length_map] at this
    rw [length, this]
  have hroots (fields : List (Field Kind)) : Kind.fieldRoots sha256Nodes m fields 0 r =
      mapItems (fun p => p.1.root sha256Nodes m 0 p.2) ((fields.map Field.kind).zip r) := by
    rw [Kind.fieldRoots_eq, List.zip_map_left, mapItems_map]
    rfl
  rw [root, root, rootOver, rootOver, hvalid, hvalid', ok_bind, ok_bind, if_pos length,
    if_pos hlen, hroots, hroots, kinds]

end Schema

/-! ### Payloads -/

namespace Beacon

theorem valid_payload : (Typed.schema Payload).Valid := rfl

theorem valid_payloadHeader : (Typed.schema PayloadHeader).Valid := rfl

/-- The header of a payload is its summary at the transactions, the field at index 13. -/
theorem summaryRecord_of_toHeader {p : Payload} {h : PayloadHeader} (hp : p.toHeader = .ok h) :
    (Typed.schema Payload).summaryRecord {13} (Typed.toRecord p) = .ok (Typed.toRecord h) := by
  simp only [Payload.toHeader, bind_eq_ok, pure_eq_ok, Except.ok.injEq] at hp
  obtain ⟨d, hd, rfl⟩ := hp
  rw [transactionsRoot] at hd
  -- the fields of the block are taken as they are, and `hd` is the root that replaces the others
  simp only [Schema.summaryRecord, Typed.schema, Typed.toRecord, ExecutionBlock.fields,
    ExecutionBlock.toValues, List.cons_append, List.nil_append, Kind.summaryValues,
    Kind.summaryValue, Finset.mem_singleton, hd]
  rfl

theorem root_of_toHeader {p : Payload} {h : PayloadHeader} (hp : p.toHeader = .ok h) :
    Typed.root h = Typed.root p := by
  have kinds : (Typed.schema PayloadHeader).fields.map Field.kind =
      ((Typed.schema Payload).summary {13}).fields.map Field.kind := rfl
  rw [Typed.root, Typed.root, ← Schema.root_summary valid_payload (summaryRecord_of_toHeader hp)]
  exact Schema.root_eq_of_kinds (Schema.valid_summary valid_payload _) valid_payloadHeader kinds
    rfl defaultMaxDepth

/-- **Summaries keep the root.**  A record that has a root can be summarised at any of its fields,
and the summary has the same root.  The header of a payload has the root of the payload, or is
refused with the same error. -/
theorem root_of_summary :
    (∀ (s : Schema) (r : Record) (d : Digest), s.Valid → s.root defaultMaxDepth r = .ok d →
      ∀ I : Finset Nat, ∃ r', s.summaryRecord I r = .ok r' ∧ (s.summary I).Valid ∧
        (s.summary I).root defaultMaxDepth r' = .ok d) ∧
    ∀ (p : Payload) (h : PayloadHeader), p.toHeader = .ok h → Typed.root h = Typed.root p := by
  refine ⟨fun s r d valid hroot I => ?_, fun p h hp => root_of_toHeader hp⟩
  obtain ⟨-, -, roots, hroots, -⟩ := Schema.rootOver_eq_ok.1 hroot
  obtain ⟨r', hr'⟩ := Kind.exists_summaryValues I hroots
  exact ⟨r', hr', Schema.valid_summary valid I, (Schema.root_summary valid hr').trans hroot⟩

theorem root_of_summary_overlong :
    let s : Schema := ⟨"Ledger", [⟨"count", .uint 8, .reject⟩,
      ⟨"notes", .list (.byteList 40) 3, .reject⟩, ⟨"owner", .bytes 20, .reject⟩]⟩
    let r : Record := [.uint (UInt256.ofNat 7), .list [.bytes [1, 2], .bytes []],
      .bytes (List.replicate 20 9)]
    let p : Payload :=
      ⟨{ (default : ExecutionBlock) with extraData := List.replicate 33 7 }, [[1, 2], []]⟩
    (∃ r', s.summaryRecord {1, 2} r = .ok r' ∧
      (s.summary {1, 2}).root defaultMaxDepth r' = s.root defaultMaxDepth r) ∧
    ∃ h, p.toHeader = .ok h ∧ Typed.root h = .error (.limitExceeded 33 32) := by
  intro s r p
  obtain ⟨hrecords, hpayloads⟩ := root_of_summary
  constructor
  · have valid : s.Valid := by
      unfold s
      rfl
    have conforms : s.Conforms r := by
      unfold s r
      rfl
    have packed : ∀ k ∈ s.kind.within, k.packedSize ≤ maxSize := by
      unfold s
      decide
    have levels : Record.nesting r ≤ defaultMaxDepth := by
      unfold r
      decide
    have hroot : s.root defaultMaxDepth r = .ok (s.treeRoot Sha256.hashPair r) := by
      rw [Schema.root, Schema.sha256Nodes_eq, Schema.rootOver_eq valid conforms packed,
        limited_of_le levels]
    obtain ⟨r', hr', -, hsame⟩ := hrecords s r _ valid hroot {1, 2}
    exact ⟨r', hr', hsame.trans hroot.symm⟩
  · have holds : transactionsKind.Holds (transactionsValue p.transactions) :=
      .list .byteList (by decide) (List.forall_mem_cons.2 ⟨.byteList (by decide),
        List.forall_mem_singleton.2 (.byteList (by decide))⟩)
    have packed : ∀ k ∈ transactionsKind.within, k.packedSize ≤ maxSize := by decide
    have hroot := Kind.root_eq (h := Sha256.hashPair) holds packed (Nat.zero_le defaultMaxDepth)
    rw [limited_of_le (by decide), ← Schema.sha256Nodes_eq] at hroot
    have hp : p.toHeader = .ok ⟨p.block,
        transactionsKind.treeRoot Sha256.hashPair (transactionsValue p.transactions)⟩ := by
      rw [Payload.toHeader, transactionsRoot, Kind.valueRoot, hroot, ok_bind]
      rfl
    refine ⟨_, hp, (hpayloads p _ hp).trans ?_⟩
    -- checking tells what hashing stops at
    have hcheck : (Typed.schema Payload).check (Typed.toRecord p) = .error (.itemTooLarge 33 32) :=
      by decide +kernel
    have hagree := Schema.check_agrees_root valid_payload (m := defaultMaxDepth) (by decide)
      (by decide) (Typed.toRecord p)
    obtain ⟨e, he, hsame⟩ := hagree.of_error hcheck
    cases hsame
    exact he

end Beacon

end SszRecord

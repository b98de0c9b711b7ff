/-
What a reading sees of a tree.

Where a schema expects a container it looks members up by the keys of its fields and at nothing
else, and a member that is null is as good as none.  `Kind.SameTree` relates trees that are the same
to such a reading.  It holds of objects that differ only in the order of their members, in members
that the schema does not name and in null for absent members (`Kind.sameTree_of_perm`), at any
depth, and trees that it relates are read alike, down to the fault that is reported
(`Schema.ofTree_congr`).
-/
import Mathlib
import SszRecord.Proofs.Json.Objects
import SszRecord.Proofs.Json.Reading
import SszRecord.Text.Decoding

namespace SszRecord

/-- The value of a key, if there is one that is not null. -/
def Json.present? (key : String) (members : List (String × Json)) : Option Json :=
  (member? key members).filter fun node => !node.isNull

namespace Kind

/-- Trees that are the same to a reading of the kind: where a container belongs, its fields are
present in both objects or in none, and what is present is the same again. -/
inductive SameTree : Kind → Json → Json → Prop
  | same (k : Kind) (t : Json) : SameTree k t t
  | vector {item : Kind} {n : Nat} {nodes nodes' : List Json}
      (length : nodes.length = nodes'.length)
      (each : ∀ p ∈ nodes.zip nodes', SameTree item p.1 p.2) :
      SameTree (.vector item n) (.array nodes) (.array nodes')
  | list {item : Kind} {max : Nat} {nodes nodes' : List Json}
      (length : nodes.length = nodes'.length)
      (each : ∀ p ∈ nodes.zip nodes', SameTree item p.1 p.2) :
      SameTree (.list item max) (.array nodes) (.array nodes')
  | container {name : String} {fields : List (Field Kind)} {members members' : List (String × Json)}
      (present : ∀ f ∈ fields,
        (Json.present? f.key members).isSome = (Json.present? f.key members').isSome)
      (each : ∀ f ∈ fields, ∀ t t', Json.present? f.key members = some t →
        Json.present? f.key members' = some t' → SameTree f.kind t t') :
      SameTree (.container name fields) (.object members) (.object members')

/-! ### What may differ -/

/-- The members of an object that the fields name and that are not null. -/
def namedMembers (fields : List (Field Kind)) (members : List (String × Json)) :
    List (String × Json) :=
  members.filter fun m => decide (m.1 ∈ fields.map Field.key) && !m.2.isNull

theorem present?_eq_some {key : String} {members : List (String × Json)}
    (distinct : (members.map Prod.fst).Nodup) {t : Json} :
    Json.present? key members = some t ↔ (key, t) ∈ members ∧ t.isNull = false := by
  rw [Json.present?, Option.filter_eq_some_iff, Bool.not_eq_true']
  refine and_congr_left fun _ => ⟨fun h => ?_, Json.member?_of_mem distinct⟩
  exact Json.mem_of_member? h

/-- **Objects are the same if their members that are named and not null are the same in any
order.** -/
theorem sameTree_of_perm {name : String} {fields : List (Field Kind)}
    {members members' : List (String × Json)} (distinct : (members.map Prod.fst).Nodup)
    (distinct' : (members'.map Prod.fst).Nodup)
    (perm : (namedMembers fields members).Perm (namedMembers fields members')) :
    SameTree (.container name fields) (.object members) (.object members') := by
  have hsame : ∀ f ∈ fields, Json.present? f.key members = Json.present? f.key members' := by
    intro f hf
    have hnamed : f.key ∈ fields.map Field.key := List.mem_map_of_mem hf
    refine Option.ext fun t => ?_
    have hmem := perm.mem_iff (a := (f.key, t))
    simp only [namedMembers, List.mem_filter, hnamed, decide_true, Bool.true_and,
      Bool.not_eq_true'] at hmem
    rw [present?_eq_some distinct, present?_eq_some distinct', hmem]
  refine .container (fun f hf => by rw [hsame f hf]) fun f hf t t' ht ht' => ?_
  rw [hsame f hf, ht', Option.some_inj] at ht
  rw [ht]
  exact .same _ _

/-! ### Reading -/

section Fields

variable {key : String} {members : List (String × Json)} (place : Place) (k : Kind)
  (absent : AbsentPolicy)

theorem nodeOfField_of_some {t : Json} (h : Json.present? key members = some t) :
    nodeOfField place k absent (Json.member? key members) = .ok t := by
  rw [Json.present?] at h
  unfold nodeOfField
  rw [h]

/-- A member that is null is as good as none. -/
theorem nodeOfField_of_none (h : Json.present? key members = none) :
    nodeOfField place k absent (Json.member? key members) = nodeOfField place k absent none := by
  rw [Json.present?] at h
  unfold nodeOfField
  rw [h]
  rfl

end Fields

theorem readNodes_congr {α : Type} {read : Nat → Json → Except TextError α}
    {nodes nodes' : List Json} (length : nodes.length = nodes'.length)
    (each : ∀ p ∈ nodes.zip nodes', ∀ i, read i p.1 = read i p.2) (i : Nat) :
    readNodes read i nodes = readNodes read i nodes' := by
  induction nodes generalizing nodes' i with
  | nil => rw [List.eq_nil_of_length_eq_zero length.symm]
  | cons node nodes ih =>
    cases nodes' with
    | nil => cases length
    | cons node' nodes' =>
      obtain ⟨hnode, hnodes⟩ := List.forall_mem_cons.1 each
      rw [readNodes, readNodes, hnode, ih (Nat.succ.inj length) hnodes]

theorem ofMembers_congr {owner : String} {fields : List (Field Kind)}
    {members members' : List (String × Json)}
    (present : ∀ f ∈ fields,
      (Json.present? f.key members).isSome = (Json.present? f.key members').isSome)
    (each : ∀ f ∈ fields, ∀ t t', Json.present? f.key members = some t →
      Json.present? f.key members' = some t' →
        ∀ place, f.kind.ofTree place t = f.kind.ofTree place t') :
    ofMembers owner fields members = ofMembers owner fields members' := by
  induction fields with
  | nil => rfl
  | cons f fields ih =>
    obtain ⟨hpresent, present⟩ := List.forall_mem_cons.1 present
    obtain ⟨hf, each⟩ := List.forall_mem_cons.1 each
    rw [ofMembers, ofMembers, ih present each]
    cases h : Json.present? f.key members with
    | none =>
      have h' : Json.present? f.key members' = none := by
        rw [← Option.not_isSome_iff_eq_none, ← hpresent, h]
        exact Bool.false_ne_true
      rw [nodeOfField_of_none _ _ _ h, nodeOfField_of_none _ _ _ h']
    | some t =>
      obtain ⟨t', h'⟩ : ∃ t', Json.present? f.key members' = some t' := by
        rw [← Option.isSome_iff_exists, ← hpresent, h]
        rfl
      rw [nodeOfField_of_some _ _ _ h, nodeOfField_of_some _ _ _ h', ok_bind, ok_bind,
        hf t t' h h']

/-- A value is read alike from trees that are the same to its kind. -/
theorem ofTree_of_sameTree {k : Kind} {t t' : Json} (h : k.SameTree t t') (place : Place) :
    k.ofTree place t = k.ofTree place t' := by
  induction h generalizing place with
  | same k t => rfl
  | @vector item n nodes nodes' length _ ih =>
    simp only [ofTree, Json.itemsAt, ok_bind, length]
    rw [readNodes_congr length fun p hp i => ih p hp (place.item i)]
  | @list item max nodes nodes' length _ ih =>
    simp only [ofTree, Json.itemsAt, ok_bind, length]
    rw [readNodes_congr length fun p hp i => ih p hp (place.item i)]
  | @container name fields members members' present _ ih =>
    simp only [ofTree]
    rw [ofMembers_congr present ih]

end Kind

namespace Schema

/-- **A reading sees only the members that the schema names.**  Trees that are the same to the
schema are read as the same record, or refused for the same fault. -/
theorem ofTree_congr {s : Schema} {t t' : Json} (h : s.kind.SameTree t t') :
    s.ofTree t = s.ofTree t' := by
  cases h with
  | same => rfl
  | container present each =>
    rw [ofTree, ofTree, readTree, readTree]
    rw [Kind.ofMembers_congr present fun f hf t t' ht ht' =>
      Kind.ofTree_of_sameTree (each f hf t t' ht ht')]

/-- Members in another order, one that no field names, and null for an absent one, inside and
outside of a list; the second item is refused in both trees. -/
theorem ofTree_congr_items :
    let inner : Kind := .container "Inner" [⟨"slot", .uint 2, .reject⟩,
      ⟨"tags", .list (.bytes 1) 2, .empty⟩]
    let s : Schema := ⟨"Outer", [⟨"items", .list inner 4, .reject⟩, ⟨"data", .byteList 4, .empty⟩]⟩
    let t : Json := .object [("items", .array [
      .object [("slot", .string "7"), ("tags", .null)],
      .object [("tags", .array [.string "ab"]), ("slot", .null), ("note", .bool true)]]),
      ("data", .string "0xff")]
    let t' : Json := .object [("extra", .null), ("data", .string "0xff"), ("items", .array [
      .object [("note", .number (.natural 5)), ("slot", .string "7")],
      .object [("tags", .array [.string "ab"])]])]
    s.kind.SameTree t t' ∧ s.ofTree t = s.ofTree t' := by
  intro inner s t t'
  have hsame : s.kind.SameTree t t' := by
    unfold s t t'
    refine .container (by decide) ?_
    simp only [List.forall_mem_cons]
    refine ⟨fun node node' h h' => ?_, fun node node' h h' => ?_, List.forall_mem_nil _⟩
    · cases h
      cases h'
      refine .list rfl ?_
      simp only [List.zip_cons_cons, List.forall_mem_cons]
      refine ⟨Kind.sameTree_of_perm (by decide) (by decide) (.refl _),
        Kind.sameTree_of_perm (by decide) (by decide) (.refl _), List.forall_mem_nil _⟩
    · cases h
      cases h'
      exact .same _ _
  exact ⟨hsame, ofTree_congr hsame⟩

end Schema

end SszRecord

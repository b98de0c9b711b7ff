/-
Reading the text form of records back.

A value that fits its kind has a tree, and this tree is read as the value, if no container gives
a key twice: `Kind.exists_tree`.  Together with what is known of printing and reading trees this
gives `Schema.ofJson_toJson`: the JSON text of a record is read as the record.
-/
import Mathlib
import SszRecord.Proofs.Hex
import SszRecord.Proofs.Json.Reading
import SszRecord.Proofs.Schema.Fits
import SszRecord.Proofs.Schema.Within
import SszRecord.Proofs.UInt256.Decimal
import SszRecord.Text.Decoding
import SszRecord.Text.Encoding

namespace SszRecord

theorem Json.Textual.isNull_eq_false {t : Json} (h : t.Textual) : t.isNull = false := by
  cases h <;> rfl

theorem readNodes_eq_ok {α : Type} {read : Nat → Json → Except TextError α} {nodes : List Json}
    {as : List α} (h : List.Forall₂ (fun a node => ∀ i, read i node = .ok a) as nodes) (i : Nat) :
    readNodes read i nodes = .ok as := by
  induction h generalizing i with
  | nil => rfl
  | cons hnode _ ih =>
    rw [readNodes, hnode, ih]
    rfl

theorem bytesAt_toText (place : Place) (b : Bytes) :
    (Json.string (Hex.toText b)).bytesAt place = .ok b := by
  rw [Json.bytesAt, Json.textAt, ok_bind, Hex.ofText_toText]
  rfl

theorem uintAt_toDecimal (place : Place) {u : UInt256} {w : Nat} (h : u.FitsWidth w) :
    (Json.string u.toDecimal).uintAt place w = .ok u := by
  rw [Json.uintAt, Json.textAt, ok_bind, UInt256.ofDecimalWidth_toDecimal h]
  rfl

theorem checkLength_of {place : Place} {p : Prop} [Decidable p] (h : p) :
    checkLength place (decide p) = .ok () := by
  rw [checkLength, if_pos (decide_eq_true h)]

namespace Kind

/-- The keys of the fields of a container. -/
def keys : Kind → List String
  | .container _ fields => fields.map Field.key
  | _ => []

/-- A tree that a value is written as and that is read as the value. -/
structure IsTree (k : Kind) (v : Value) (t : Json) : Prop where
  written : k.toTree v = .ok t
  textual : t.Textual
  read : ∀ place, k.ofTree place t = .ok v

/-- Fields are read from an object that holds the tree of each of them. -/
theorem ofMembers_eq_ok {owner : String} {members : List (String × Json)}
    (distinct : (members.map Prod.fst).Nodup) {fields : List (Field Kind)} {values : List Value}
    (h : List.Forall₂ (fun f v => ∃ t, (f.key, t) ∈ members ∧ f.kind.IsTree v t) fields values) :
    ofMembers owner fields members = .ok values := by
  induction h with
  | nil => rfl
  | @cons f v fields values hf _ ih =>
    obtain ⟨t, hmem, ht⟩ := hf
    have hnode (place : Place) : nodeOfField place f.kind f.absent
        (Json.member? f.key members) = .ok t := by
      have hfilter : (some t).filter (fun node => !node.isNull) = some t := by
        rw [Option.filter_some, ht.textual.isNull_eq_false]
        rfl
      unfold nodeOfField
      rw [Json.member?_of_mem distinct hmem, hfilter]
    rw [ofMembers]
    show (do
      let node ← nodeOfField ⟨owner, f.key, []⟩ f.kind f.absent (Json.member? f.key members)
      let value ← f.kind.ofTree ⟨owner, f.key, []⟩ node
      let values ← ofMembers owner fields members
      return value :: values) = _
    rw [hnode]
    show (do
      let value ← f.kind.ofTree ⟨owner, f.key, []⟩ t
      let values ← ofMembers owner fields members
      return value :: values) = _
    rw [ht.read, ih]
    rfl

theorem exists_members {fields : List (Field Kind)} {values : List Value}
    (h : List.Forall₂ (fun f v => ∃ t, f.kind.IsTree v t) fields values) :
    ∃ members, toMembers fields values = .ok members ∧
      members.map Prod.fst = fields.map Field.key ∧ (∀ m ∈ members, m.2.Textual) ∧
      List.Forall₂ (fun f v => ∃ t, (f.key, t) ∈ members ∧ f.kind.IsTree v t) fields values := by
  induction h with
  | nil => exact ⟨[], rfl, rfl, List.forall_mem_nil _, .nil⟩
  | @cons f v fields values hf _ ih =>
    obtain ⟨t, ht⟩ := hf
    obtain ⟨members, hwritten, hkeys, htextual, hmembers⟩ := ih
    refine ⟨(f.key, t) :: members, ?_, ?_, List.forall_mem_cons.2 ⟨ht.textual, htextual⟩,
      .cons ⟨t, List.mem_cons_self, ht⟩ (hmembers.imp fun f v ⟨t, hmem, ht⟩ =>
        ⟨t, List.mem_cons_of_mem _ hmem, ht⟩)⟩
    · rw [toMembers, ht.written, hwritten]
      rfl
    · rw [List.map_cons, List.map_cons, hkeys]

/-- The trees of items. -/
theorem exists_items {item : Kind} {items : List Value} (h : ∀ v ∈ items, ∃ t, item.IsTree v t) :
    ∃ trees, mapItems (fun v => item.toTree v) items = .ok trees ∧
      trees.length = items.length ∧ (∀ t ∈ trees, t.Textual) ∧ ∀ place : Place,
        readNodes (fun i node => item.ofTree (place.item i) node) 0 trees = .ok items := by
  obtain ⟨trees, htrees⟩ := exists_forall₂ h
  refine ⟨trees, mapItems_eq_ok.2 (htrees.imp fun v t ht => ht.written), htrees.length_eq.symm,
    forall_of_forall₂ htrees fun v t ht => ht.textual, fun place => ?_⟩
  exact readNodes_eq_ok (htrees.imp fun v t ht i => ht.read (place.item i)) 0

/-- **Every value that fits has a tree, and the tree is read as the value.** -/
theorem exists_tree {k : Kind} {v : Value} (h : k.Fits v)
    (distinct : ∀ k' ∈ k.within, k'.keys.Nodup) : ∃ t, k.IsTree v t := by
  induction h with
  | bytes length =>
    refine ⟨_, rfl, .string _, fun place => ?_⟩
    rw [ofTree, bytesAt_toText, ok_bind, checkLength_of length]
    rfl
  | uint fits =>
    refine ⟨_, rfl, .string _, fun place => ?_⟩
    rw [ofTree, uintAt_toDecimal place fits]
    rfl
  | byteList length =>
    refine ⟨_, rfl, .string _, fun place => ?_⟩
    rw [ofTree, bytesAt_toText, ok_bind, checkLength_of length]
    rfl
  | @vector item n items length _ ih =>
    obtain ⟨-, distinct⟩ := forall_within_vector.1 distinct
    obtain ⟨trees, hwritten, hcount, htextual, hread⟩ := exists_items fun v hv => ih v hv distinct
    refine ⟨.array trees, ?_, .array htextual, fun place => ?_⟩
    · rw [toTree, hwritten]
      rfl
    · rw [ofTree, Json.itemsAt, ok_bind, checkLength_of (hcount.trans length),
        ok_bind, hread]
      rfl
  | @list item max items length _ ih =>
    obtain ⟨-, distinct⟩ := forall_within_list.1 distinct
    obtain ⟨trees, hwritten, hcount, htextual, hread⟩ := exists_items fun v hv => ih v hv distinct
    refine ⟨.array trees, ?_, .array htextual, fun place => ?_⟩
    · rw [toTree, hwritten]
      rfl
    · rw [ofTree, Json.itemsAt, ok_bind, checkLength_of (hcount.trans_le length),
        ok_bind, hread]
      rfl
  | @container name fields values length _ ih =>
    obtain ⟨hkeys, distinct⟩ := forall_within_container.1 distinct
    have hfields : List.Forall₂ (fun f v => ∃ t, f.kind.IsTree v t) fields values :=
      forall₂_fields (R := fun k v => ∃ t, k.IsTree v t) length.symm fun p hp =>
        ih p hp (distinct _ (List.of_mem_zip hp).1)
    obtain ⟨members, hwritten, hmembers, htextual, hfields⟩ := exists_members hfields
    have hdistinct : (members.map Prod.fst).Nodup := by rwa [hmembers]
    refine ⟨.object members, ?_, .object hdistinct htextual, fun place => ?_⟩
    · rw [toTree, hwritten, ok_bind, Json.collect_of_nodup hdistinct]
      rfl
    · rw [ofTree, ofMembers_eq_ok hdistinct hfields]

end Kind

namespace Schema

/-- The tree of a record is read as the record. -/
theorem exists_tree {s : Schema} (distinct : ∀ k ∈ s.kind.within, k.keys.Nodup) {r : Record}
    (fits : s.Conforms r) :
    ∃ tree, s.toTree r = .ok tree ∧ tree.Textual ∧ s.ofTree tree = .ok r := by
  obtain ⟨tree, hwritten, htextual, hread⟩ :=
    Kind.exists_tree (Kind.fits_container.2 (conforms_iff.1 fits)) distinct
  refine ⟨tree, ?_, htextual, ?_⟩
  · rw [toTree, fits, ok_bind]
    exact hwritten
  · have hcontainer := hread ⟨s.name, "", []⟩
    cases htextual with
    | string => cases hcontainer
    | array => cases hcontainer
    | @object members =>
      rw [Kind.ofTree] at hcontainer
      rw [ofTree, readTree]
      split at hcontainer
      · rename_i values hvalues
        cases hcontainer
        rw [hvalues]
        rfl
      · cases hcontainer

/-- **The JSON text of a record is read as the record**, in either layout. -/
theorem ofJson_toJson {s : Schema} (distinct : ∀ k ∈ s.kind.within, k.keys.Nodup) {r : Record}
    (fits : s.Conforms r) (levels : ∀ tree, s.toTree r = .ok tree → tree.levels ≤ 127)
    (layout : Json.Layout) :
    ∃ text, s.toJson layout r = .ok text ∧ s.ofJson text = .ok r := by
  obtain ⟨tree, hwritten, htextual, hread⟩ := exists_tree distinct fits
  refine ⟨tree.toText layout, ?_, ?_⟩
  · rw [toJson, hwritten]
    rfl
  · rw [ofJson, Json.ofText_toText htextual (levels tree hwritten)]
    exact hread

/-- Keys that need escapes, inside and outside of a list, and an integer beyond one word. -/
theorem ofJson_toJson_escapes :
    let inner : Kind := .container "Inner" [⟨"\x01", .uint 32, .reject⟩]
    let s : Schema := ⟨"Note", [⟨"a \"b\"\n", .byteList 8, .reject⟩, ⟨"\\", .list inner 4, .empty⟩]⟩
    let r : Record := [.bytes [1, 171], .list [.container [.uint ⟨7, 0, 9, 0⟩]]]
    (∀ k ∈ s.kind.within, k.keys.Nodup) ∧ s.Conforms r ∧
      (∀ tree, s.toTree r = .ok tree → tree.levels ≤ 127) ∧
      ∃ text, s.toJson .indented r = .ok text ∧ s.ofJson text = .ok r := by
  intro inner s r
  have hdistinct : ∀ k ∈ s.kind.within, k.keys.Nodup := by
    unfold s inner
    decide
  have hfits : s.Conforms r := by
    unfold s r inner
    rfl
  have hlevels : ∀ tree, s.toTree r = .ok tree → tree.levels ≤ 127 := by
    intro tree htree
    cases htree
    decide
  exact ⟨hdistinct, hfits, hlevels, ofJson_toJson hdistinct hfits hlevels .indented⟩

end Schema

end SszRecord

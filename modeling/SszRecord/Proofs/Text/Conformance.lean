/-
Records that are read conform.

Reading a text form looks after lengths, counts and widths on its own, and it reads absent fields
from a substitute.  Whatever it accepts is nevertheless a record that the check of the schema
accepts (`Kind.fits_of_ofTree`), so that it can be written in every text form again
(`Kind.exists_written`).  If no container gives a key twice, then the tree that is written is read
as the same record: one pass of reading and writing takes any accepted text to its canonical form
(`Schema.conforms_of_read`).
-/
import Mathlib
import SszRecord.Proofs.Text.Reading
import SszRecord.Proofs.Yaml.Reading

namespace SszRecord

/-! ### Nodes that are read -/

section Nodes

variable {place : Place} {node : Json}

theorem textAt_eq_ok {s : String} : node.textAt place = .ok s ↔ node = .string s := by
  cases node <;> simp [Json.textAt, TextError.notField]

theorem uintAt_eq_ok {w : Nat} {u : UInt256} :
    node.uintAt place w = .ok u ↔
      ∃ s, node = .string s ∧ UInt256.ofDecimalWidth w s = .ok u := by
  simp only [Json.uintAt, bind_eq_ok, textAt_eq_ok]
  refine exists_congr fun s => and_congr_right fun _ => ?_
  cases UInt256.ofDecimalWidth w s <;> simp

theorem checkLength_eq_ok {fits : Bool} {u : Unit} :
    checkLength place fits = .ok u ↔ fits = true := by
  cases fits <;> simp [checkLength]

end Nodes

/-- There is a value for every node, and each of them was read from one. -/
theorem forall_of_readNodes {α : Type} {read : Nat → Json → Except TextError α}
    {nodes : List Json} {i : Nat} {as : List α} (h : readNodes read i nodes = .ok as) :
    as.length = nodes.length ∧ ∀ a ∈ as, ∃ j node, read j node = .ok a := by
  induction nodes generalizing i as with
  | nil =>
    cases h
    exact ⟨rfl, List.forall_mem_nil _⟩
  | cons node nodes ih =>
    rw [readNodes] at h
    simp only [bind_eq_ok, pure_eq_ok, Except.ok.injEq] at h
    obtain ⟨a, ha, as, has, rfl⟩ := h
    obtain ⟨hlen, heach⟩ := ih has
    exact ⟨congrArg Nat.succ hlen, List.forall_mem_cons.2 ⟨⟨i, node, ha⟩, heach⟩⟩

namespace Kind

/-! ### What is read fits -/

theorem forall₂_of_ofMembers {owner : String} {fields : List (Field Kind)}
    {members : List (String × Json)} {values : List Value}
    (h : ofMembers owner fields members = .ok values) :
    List.Forall₂ (fun f v => ∃ place node, f.kind.ofTree place node = .ok v) fields values := by
  induction fields generalizing values with
  | nil =>
    cases h
    exact .nil
  | cons f fields ih =>
    rw [ofMembers] at h
    simp only [bind_eq_ok, pure_eq_ok, Except.ok.injEq] at h
    obtain ⟨node, -, v, hv, values, hvalues, rfl⟩ := h
    exact .cons ⟨_, node, hv⟩ (ih hvalues)

/-- **What is read from a tree fits its kind.** -/
theorem fits_of_ofTree {k : Kind} {place : Place} {t : Json} {v : Value}
    (h : k.ofTree place t = .ok v) : k.Fits v := by
  induction k generalizing place t v with
  | bytes n =>
    simp only [ofTree, bind_eq_ok, checkLength_eq_ok, decide_eq_true_eq] at h
    obtain ⟨b, -, ⟨⟩, hlen, h⟩ := h
    cases h
    exact .bytes hlen
  | uint w =>
    simp only [ofTree, bind_eq_ok, uintAt_eq_ok] at h
    obtain ⟨u, ⟨s, -, hu⟩, h⟩ := h
    cases h
    exact .uint (UInt256.fitsWidth_of_ofDecimalWidth hu)
  | byteList max =>
    simp only [ofTree, bind_eq_ok, checkLength_eq_ok, decide_eq_true_eq] at h
    obtain ⟨b, -, ⟨⟩, hlen, h⟩ := h
    cases h
    exact .byteList hlen
  | vector item n ih =>
    simp only [ofTree, bind_eq_ok, checkLength_eq_ok, decide_eq_true_eq] at h
    obtain ⟨nodes, -, ⟨⟩, hlen, items, hitems, h⟩ := h
    cases h
    obtain ⟨hcount, heach⟩ := forall_of_readNodes hitems
    refine .vector (hcount.trans hlen) fun v hv => ?_
    obtain ⟨j, node, hnode⟩ := heach v hv
    exact ih hnode
  | list item max ih =>
    simp only [ofTree, bind_eq_ok, checkLength_eq_ok, decide_eq_true_eq] at h
    obtain ⟨nodes, -, ⟨⟩, hlen, items, hitems, h⟩ := h
    cases h
    obtain ⟨hcount, heach⟩ := forall_of_readNodes hitems
    refine .list (hcount.trans_le hlen) fun v hv => ?_
    obtain ⟨j, node, hnode⟩ := heach v hv
    exact ih hnode
  | container name fields ih =>
    cases t with
    | object members =>
      rw [ofTree] at h
      split at h
      · rename_i values hvalues
        cases h
        refine fits_container.2 (forall₂_imp_of_mem (forall₂_of_ofMembers hvalues) ?_)
        rintro f hf v ⟨place, node, hv⟩
        exact ih f hf hv
      · cases h
    | _ => cases h

/-! ### What fits is written -/

/-- A value that fits is written in both text forms, whatever the keys of containers are. -/
theorem exists_written {k : Kind} {v : Value} (h : k.Fits v) :
    (∃ t, k.toTree v = .ok t) ∧ ∃ text, k.toFlow v = .ok text := by
  induction h with
  | bytes _ => exact ⟨⟨_, rfl⟩, ⟨_, rfl⟩⟩
  | uint _ => exact ⟨⟨_, rfl⟩, ⟨_, rfl⟩⟩
  | byteList _ => exact ⟨⟨_, rfl⟩, ⟨_, rfl⟩⟩
  | vector _ _ ih =>
    obtain ⟨trees, htrees⟩ := exists_mapItems fun v hv => (ih v hv).1
    obtain ⟨texts, htexts⟩ := exists_mapItems fun v hv => (ih v hv).2
    rw [toTree, htrees, toFlow, htexts]
    exact ⟨⟨_, rfl⟩, ⟨_, rfl⟩⟩
  | list _ _ ih =>
    obtain ⟨trees, htrees⟩ := exists_mapItems fun v hv => (ih v hv).1
    obtain ⟨texts, htexts⟩ := exists_mapItems fun v hv => (ih v hv).2
    rw [toTree, htrees, toFlow, htexts]
    exact ⟨⟨_, rfl⟩, ⟨_, rfl⟩⟩
  | @container name fields values _ _ ih =>
    have hmembers : ∃ members, toMembers fields values = .ok members := by
      rw [toMembers_eq]
      refine exists_mapItems fun p hp => ?_
      obtain ⟨t, ht⟩ := (ih p hp).1
      rw [ht]
      exact ⟨_, rfl⟩
    have htexts : ∃ texts, toFlowMembers fields values = .ok texts := by
      rw [toFlowMembers_eq]
      refine exists_mapItems fun p hp => ?_
      obtain ⟨text, htext⟩ := (ih p hp).2
      rw [htext]
      exact ⟨_, rfl⟩
    obtain ⟨members, hmembers⟩ := hmembers
    obtain ⟨texts, htexts⟩ := htexts
    rw [toTree, hmembers, toFlow, htexts]
    exact ⟨⟨_, rfl⟩, ⟨_, rfl⟩⟩

end Kind

namespace Schema

variable {s : Schema} {r : Record}

/-- A record is read from the fields of a container that stands by itself. -/
theorem ofTree_eq_ok {tree : Json} :
    s.ofTree tree = .ok r ↔
      ∃ members, tree = .object members ∧ Kind.ofMembers s.name s.fields members = .ok r := by
  rw [ofTree]
  cases tree with
  | object members =>
    rw [readTree]
    cases h : Kind.ofMembers s.name s.fields members <;> simp [Except.mapError, h]
  | _ => simp [readTree, Except.mapError]

theorem conforms_of_ofTree {tree : Json} (h : s.ofTree tree = .ok r) : s.Conforms r := by
  obtain ⟨members, -, h⟩ := ofTree_eq_ok.1 h
  rw [conforms_iff]
  refine (Kind.forall₂_of_ofMembers h).imp ?_
  rintro f v ⟨place, node, hv⟩
  exact Kind.fits_of_ofTree hv

/-- What is read from a YAML text is read from a tree. -/
theorem exists_ofTree_of_ofYaml {text : String} (h : s.ofYaml text = .ok r) :
    ∃ tree, s.ofTree tree = .ok r := by
  unfold ofYaml at h
  cases htree : s.treeOfYaml text with
  | error fault =>
    rw [htree] at h
    cases h
  | ok tree =>
    rw [htree] at h
    exact ⟨tree, h⟩

/-- **Records that are read conform**, so they can be written again; and if no container gives a
key twice, then the tree that is written is read as the same record. -/
theorem conforms_of_read
    (read : (∃ tree, s.ofTree tree = .ok r) ∨ ∃ text, s.ofYaml text = .ok r) :
    s.Conforms r ∧ ∃ tree text, s.toTree r = .ok tree ∧ s.toYaml r = .ok text ∧
      ((∀ k ∈ s.kind.within, k.keys.Nodup) → s.ofTree tree = .ok r) := by
  have fits : s.Conforms r := by
    rcases read with ⟨tree, h⟩ | ⟨text, h⟩
    · exact conforms_of_ofTree h
    · obtain ⟨tree, h⟩ := exists_ofTree_of_ofYaml h
      exact conforms_of_ofTree h
  obtain ⟨⟨tree, htree⟩, ⟨text, htext⟩⟩ :=
    Kind.exists_written (Kind.fits_container.2 (conforms_iff.1 fits))
  have hwritten : s.toTree r = .ok tree := by rw [toTree, fits, ok_bind]; exact htree
  refine ⟨fits, tree, String.ofList text, hwritten, ?_, fun distinct => ?_⟩
  · rw [toYaml, fits, ok_bind]
    show (do return String.ofList (← s.kind.toFlow (.container r))) = _
    rw [kind, htext]
    rfl
  · obtain ⟨tree', hwritten', -, hread⟩ := exists_tree distinct fits
    rw [hwritten, Except.ok.injEq] at hwritten'
    rw [hwritten', hread]

/-- An item without one of its fields, digits in front and of either case, a member that is null and
one that the schema does not name. -/
theorem conforms_of_read_absent :
    let inner : Kind := .container "Inner" [⟨"slot", .uint 2, .reject⟩,
      ⟨"tags", .list (.bytes 1) 2, .empty⟩]
    let s : Schema := ⟨"Outer", [⟨"items", .vector inner 2, .reject⟩,
      ⟨"data", .byteList 4, .empty⟩]⟩
    let tree : Json := .object [("zzz", .bool true), ("data", .null), ("items", .array [
      .object [("slot", .string "007")],
      .object [("tags", .array [.string "aB", .string "0xcd"]), ("slot", .string "65535")]])]
    let r : Record := [.vector [.container [.uint ⟨7, 0, 0, 0⟩, .list []],
      .container [.uint ⟨65535, 0, 0, 0⟩, .list [.bytes [171], .bytes [205]]]], .bytes []]
    s.ofTree tree = .ok r ∧ s.Conforms r ∧
      ∃ tree text, s.toTree r = .ok tree ∧ s.toYaml r = .ok text ∧
        ((∀ k ∈ s.kind.within, k.keys.Nodup) → s.ofTree tree = .ok r) := by
  intro inner s tree r
  have hread : s.ofTree tree = .ok r := by
    unfold s tree r inner
    rfl
  exact ⟨hread, conforms_of_read (.inl ⟨tree, hread⟩)⟩

end Schema

end SszRecord

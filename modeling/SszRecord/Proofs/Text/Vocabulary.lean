/-
How reading records from trees fails.

Whatever a tree holds, reading it fails for what it says: a field is missing, a node has another
shape, a scalar is no value of its kind or a length is wrong (`TextError.IsVocabulary`).  That a
text could not be made into a tree is another error, and comes from the parsers of texts alone.

* `Kind.isVocabulary_of_ofTree`, `Schema.exists_vocabulary_of_ofTree`.
-/
import Mathlib
import SszRecord.Proofs.Schema.Fits
import SszRecord.Text.Decoding

namespace SszRecord

/-- Errors about what a text says, and not about how it is written. -/
def TextError.IsVocabulary : TextError → Prop
  | .parse _ => False
  | .nested inner => inner.IsVocabulary
  | .missing _ => True
  | .shape _ => True
  | .invalidValue _ _ => True
  | .incorrectLength _ => True

namespace Kind

variable {place : Place} {node : Json} {e : TextError}

theorem isVocabulary_of_textAt (h : node.textAt place = .error e) : e.IsVocabulary := by
  cases node <;> cases h <;> trivial

theorem isVocabulary_of_itemsAt (h : node.itemsAt place = .error e) : e.IsVocabulary := by
  cases node <;> cases h <;> trivial

theorem isVocabulary_of_bytesAt (h : node.bytesAt place = .error e) : e.IsVocabulary := by
  obtain h | ⟨text, -, h⟩ := bind_eq_error.1 h
  · exact isVocabulary_of_textAt h
  · split at h
    · cases h
    · cases h
      trivial

theorem isVocabulary_of_uintAt {w : Nat} (h : node.uintAt place w = .error e) :
    e.IsVocabulary := by
  obtain h | ⟨text, -, h⟩ := bind_eq_error.1 h
  · exact isVocabulary_of_textAt h
  · split at h
    · cases h
    · cases h
      trivial

theorem isVocabulary_of_checkLength {fits : Bool} (h : checkLength place fits = .error e) :
    e.IsVocabulary := by
  cases fits <;> cases h
  trivial

theorem isVocabulary_of_readNodes {α : Type} {read : Nat → Json → Except TextError α}
    {nodes : List Json} (h : ∀ i, ∀ node ∈ nodes, ∀ e, read i node = .error e → e.IsVocabulary)
    {i : Nat} (hread : readNodes read i nodes = .error e) : e.IsVocabulary := by
  induction nodes generalizing i with
  | nil => cases hread
  | cons node nodes ih =>
    obtain hnode | ⟨a, -, hread⟩ := bind_eq_error.1 hread
    · exact h i node (List.mem_cons_self ..) e hnode
    · obtain hnodes | ⟨as, -, hread⟩ := bind_eq_error.1 hread
      · exact ih (fun i node hmem => h i node (List.mem_cons_of_mem _ hmem)) hnodes
      · cases hread

theorem isVocabulary_of_nodeOfField {k : Kind} {absent : AbsentPolicy} {node? : Option Json}
    (h : nodeOfField place k absent node? = .error e) : e.IsVocabulary := by
  unfold nodeOfField at h
  split at h
  · cases h
  · split at h
    · cases h
    · cases h
      trivial

theorem isVocabulary_of_ofMembers {owner : String} {fields : List (Field Kind)}
    (h : ∀ f ∈ fields, ∀ place node e, f.kind.ofTree place node = .error e → e.IsVocabulary)
    {members : List (String × Json)} (hread : ofMembers owner fields members = .error e) :
    e.IsVocabulary := by
  induction fields with
  | nil => cases hread
  | cons f fields ih =>
    obtain ⟨hf, hfields⟩ := List.forall_mem_cons.1 h
    obtain hnode | ⟨node, -, hread⟩ := bind_eq_error.1 hread
    · exact isVocabulary_of_nodeOfField hnode
    · obtain hvalue | ⟨value, -, hread⟩ := bind_eq_error.1 hread
      · exact hf _ node e hvalue
      · obtain hvalues | ⟨values, -, hread⟩ := bind_eq_error.1 hread
        · exact ih hfields hvalues
        · cases hread

theorem isVocabulary_of_bytes {fits : Bytes → Bool} (h : (do
      let b ← node.bytesAt place
      checkLength place (fits b)
      return Value.bytes b) = .error e) : e.IsVocabulary := by
  obtain h | ⟨b, -, h⟩ := bind_eq_error.1 h
  · exact isVocabulary_of_bytesAt h
  · obtain h | ⟨_, -, h⟩ := bind_eq_error.1 h
    · exact isVocabulary_of_checkLength h
    · cases h

theorem isVocabulary_of_items {fits : List Json → Bool}
    {read : Nat → Json → Except TextError Value}
    (hread : ∀ i node e, read i node = .error e → e.IsVocabulary) {value : List Value → Value}
    (h : (do
      let nodes ← node.itemsAt place
      checkLength place (fits nodes)
      return value (← readNodes read 0 nodes)) = .error e) : e.IsVocabulary := by
  obtain h | ⟨nodes, -, h⟩ := bind_eq_error.1 h
  · exact isVocabulary_of_itemsAt h
  · obtain h | ⟨_, -, h⟩ := bind_eq_error.1 h
    · exact isVocabulary_of_checkLength h
    · obtain h | ⟨items, -, h⟩ := bind_eq_error.1 h
      · exact isVocabulary_of_readNodes (fun i node _ => hread i node) h
      · cases h

/-- **How reading a value from a tree fails.** -/
theorem isVocabulary_of_ofTree {k : Kind} (h : k.ofTree place node = .error e) :
    e.IsVocabulary := by
  induction k generalizing place node e with
  | bytes n => exact isVocabulary_of_bytes h
  | byteList max => exact isVocabulary_of_bytes h
  | uint w =>
    obtain h | ⟨u, -, h⟩ := bind_eq_error.1 h
    · exact isVocabulary_of_uintAt h
    · cases h
  | vector item n ih => exact isVocabulary_of_items (fun i node e => ih) h
  | list item max ih => exact isVocabulary_of_items (fun i node e => ih) h
  | container name fields ih =>
    cases node with
    | object members =>
      rw [ofTree] at h
      split at h
      · cases h
      · rename_i fault hread
        cases h
        show fault.IsVocabulary
        exact isVocabulary_of_ofMembers (fun f hf place node e => ih f hf) hread
    | _ =>
      cases h
      trivial

end Kind

/-- **How reading a record from a tree fails**, and so how well-formed JSON texts do. -/
theorem Schema.exists_vocabulary_of_ofTree {s : Schema} {tree : Json} {e : CodecError}
    (h : s.ofTree tree = .error e) : ∃ fault, e = .text fault ∧ fault.IsVocabulary := by
  rw [ofTree] at h
  cases hread : s.readTree tree with
  | ok r =>
    rw [hread] at h
    cases h
  | error fault =>
    rw [hread] at h
    cases h
    refine ⟨fault, rfl, ?_⟩
    cases tree with
    | object members =>
      refine Kind.isVocabulary_of_ofMembers (fun f _ place node e => ?_) hread
      exact Kind.isVocabulary_of_ofTree
    | _ =>
      cases hread
      trivial

end SszRecord

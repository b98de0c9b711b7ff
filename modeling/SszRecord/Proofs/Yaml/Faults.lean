/-
How reading YAML texts fails.

A text of which the document denotes a tree is read exactly as the tree is, so it fails, if it does,
for what the tree lacks or holds.  A text that denotes no tree is refused before.  Being well-formed
is not enough for denoting one: a sequence or a mapping where a scalar belongs is refused with the
text.

* `Kind.exactly_denotes` : which plain nodes denote trees;
* `Schema.ofYaml_fault` : how reading a text fails;
* `Schema.ofYaml_sequence_unreadable` : a well-formed text that is refused as if it were not.
-/
import Mathlib
import SszRecord.Proofs.Text.Vocabulary
import SszRecord.Proofs.Yaml.Denotation

namespace SszRecord

open Yaml

namespace Yaml

/-! ### What suits a kind -/

/-- The text of a scalar. -/
def Node.text? : Node → Option String
  | .scalar text _ _ _ => some text
  | _ => none

/-- Nodes without tags and aliases, nested at most `levels` levels, with scalars for keys. -/
inductive Node.Plain : (levels : Nat) → Node → Prop
  | scalar {levels : Nat} (text : String) (isPlain : Bool) (mark : Mark) :
      Plain levels (.scalar text isPlain none mark)
  | sequence {levels : Nat} {items : List Node} {mark stop : Mark}
      (each : ∀ n ∈ items, Plain levels n) : Plain (levels + 1) (.sequence none items mark stop)
  | mapping {levels : Nat} {members : List (Node × Node)} {mark stop : Mark}
      (keys : ∀ m ∈ members, ∃ key, m.1.text? = some key)
      (each : ∀ m ∈ members, Plain levels m.2) :
      Plain (levels + 1) (.mapping none members mark stop)
  | void {levels : Nat} (mark : Mark) : Plain levels (.void mark)

/-- What a node offers where a sequence or a mapping is wanted: items, members, or a scalar that is
no integer below those of 64 bits. -/
def Node.Offers (item : Node → Prop) (member : String → Node → Prop) : Node → Prop
  | .scalar text isPlain _ _ =>
    isPlain = true → ∀ value, integer? text = some value → isBelowWords value = false
  | .sequence _ items _ _ => ∀ n ∈ items, item n
  | .mapping _ members _ _ => ∀ m ∈ members, ∀ key, m.1.text? = some key → member key m.2
  | .void _ => True
  | .reference _ _ => False

end Yaml

namespace Kind

mutual

/-- Whether a node has scalars wherever a kind wants scalars.  Anywhere else a node of another shape
than the one that is wanted may stand, unless it is an integer below those of 64 bits. -/
def Suits : Kind → Node → Prop
  | .bytes _, n => n.text?.isSome
  | .uint _, n => n.text?.isSome
  | .byteList _, n => n.text?.isSome
  | .vector item _, n => n.Offers (fun n => item.Suits n) fun _ _ => True
  | .list item _, n => n.Offers (fun n => item.Suits n) fun _ _ => True
  | .container _ fields, n =>
    n.Offers (fun n => n.text?.isSome) fun key n => FieldSuits fields key n

/-- Whether the value of a key suits the field that has the key. -/
def FieldSuits : List (Field Kind) → (key : String) → Node → Prop
  | [], _, _ => True
  | ⟨key', kind, _⟩ :: rest, key, n => if key' = key then kind.Suits n else FieldSuits rest key n

end

end Kind

namespace Yaml

/-! ### Plain scalars -/

theorem integer?_of_isNullText {text : String} (h : isNullText text = true) :
    integer? text = none := by
  simp only [isNullText, List.contains_iff_mem, List.mem_cons, List.not_mem_nil, or_false] at h
  obtain rfl | rfl | rfl | rfl := h <;> rfl

theorem integer?_of_boolOfText? {text : String} {b : Bool} (h : boolOfText? text = some b) :
    integer? text = none := by
  simp only [boolOfText?, List.contains_iff_mem, List.mem_cons, List.not_mem_nil, or_false] at h
  split at h
  · rename_i htrue
    obtain rfl | rfl | rfl := htrue <;> rfl
  · split at h
    · rename_i hfalse
      obtain rfl | rfl | rfl := hfalse <;> rfl
    · cases h

theorem integer?_of_isEmpty {text : String} (h : text.isEmpty = true) : integer? text = none := by
  rw [String.isEmpty_iff] at h
  rw [h]
  rfl

/-- Which scalars without a tag stand for a tree where a sequence or a mapping is wanted. -/
theorem exists_scalarTree (mark : Mark) (text : String) (isPlain : Bool) :
    (∃ tree, scalarTree [] .scalar mark text isPlain none = .ok tree) ↔
      (isPlain = true → ∀ value, integer? text = some value → isBelowWords value = false) := by
  cases isPlain with
  | false => exact ⟨fun _ h => (Bool.false_ne_true h).elim, fun _ => ⟨_, rfl⟩⟩
  | true =>
    rw [eq_self, true_imp_iff]
    show (∃ tree, plainTree [] .scalar mark text = .ok tree) ↔ _
    rw [plainTree]
    split
    · rename_i hnull
      have hnone : integer? text = none := by
        rw [Bool.or_eq_true] at hnull
        exact hnull.elim integer?_of_isEmpty integer?_of_isNullText
      simp [hnone]
    · split
      · rename_i b _ hbool
        simp [integer?_of_boolOfText? hbool]
      · rename_i value _ hvalue
        rw [hvalue, integerTree]
        cases hbelow : isBelowWords value <;> simp [misfit, hbelow]
      · rename_i hnone
        simp [hnone]

/-! ### Plain nodes -/

section Each

variable {α β : Type} {S : Meaning α β} {p : α → Prop} {as : List α}

theorem Each.forall {bs : List β} {k : Nat} (h : Each S as bs k)
    (hp : ∀ a ∈ as, ∀ b k, S a b k → k = 0 ∧ p a) : k = 0 ∧ ∀ a ∈ as, p a := by
  induction h with
  | nil => exact ⟨rfl, List.forall_mem_nil _⟩
  | cons head tail ih =>
    obtain ⟨ha, has⟩ := List.forall_mem_cons.1 hp
    obtain ⟨rfl, ha⟩ := ha _ _ head
    obtain ⟨rfl, has⟩ := ih has
    exact ⟨rfl, List.forall_mem_cons.2 ⟨ha, has⟩⟩

theorem exists_each (h : ∀ a ∈ as, ∃ b, S a b 0) : ∃ bs, Each S as bs 0 := by
  induction as with
  | nil => exact ⟨[], .nil⟩
  | cons a as ih =>
    obtain ⟨⟨b, hb⟩, has⟩ := List.forall_mem_cons.1 h
    obtain ⟨bs, hbs⟩ := ih has
    exact ⟨b :: bs, .cons hb hbs⟩

end Each

/-- A meaning that the nodes `p` have, and no others, without following aliases. -/
def Exactly {α β : Type} (S : Meaning α β) (p : α → Prop) (a : α) : Prop :=
  (∀ b k, S a b k → k = 0 ∧ p a) ∧ (p a → ∃ b, S a b 0)

theorem Node.Plain.isDirect {levels : Nat} {n : Node} (h : n.Plain levels) : n.IsDirect := by
  cases h <;> trivial

variable {d : Document}

theorem exactly_through {β : Type} {S : Meaning Node β} {p : Node → Prop} {n : Node}
    (direct : n.IsDirect) (h : Exactly S p n) : Exactly (d.Through S) p n := by
  simpa only [Exactly, Document.through_direct direct] using h

theorem exactly_spelled {n : Node} (direct : n.IsDirect) :
    Exactly (d.Through Spelled) (fun n => n.text?.isSome) n := by
  refine exactly_through direct ⟨?_, fun h => ?_⟩
  · rintro _ _ ⟨⟩
    exact ⟨rfl, rfl⟩
  · cases n with
    | scalar text isPlain tag mark => exact ⟨_, .scalar text isPlain tag mark⟩
    | _ => cases h

theorem exactly_arrayOf {item : Meaning Node Json} {p : Node → Prop} {items : List Node}
    (h : ∀ n ∈ items, Exactly item p n) :
    Exactly (ArrayOf item) (fun items => ∀ n ∈ items, p n) items := by
  constructor
  · rintro _ k ⟨each⟩
    exact each.forall fun n hn => (h n hn).1
  · intro hp
    obtain ⟨trees, htrees⟩ := exists_each fun n hn => (h n hn).2 (hp n hn)
    exact ⟨_, .intro htrees⟩

theorem through_spelled {n : Node} {key : String} (h : n.text? = some key) {name : String}
    {k : Nat} : d.Through Spelled n (.string name) k ↔ name = key ∧ k = 0 := by
  cases n with
  | scalar text isPlain tag mark =>
    obtain rfl := Option.some.inj h
    rw [Document.through_direct (n := .scalar text isPlain tag mark) trivial]
    constructor
    · rintro ⟨⟩
      exact ⟨rfl, rfl⟩
    · rintro ⟨rfl, rfl⟩
      exact .scalar name isPlain tag mark
  | _ => cases h

theorem exactly_objectOf {value : String → Meaning Node (Option Json)}
    {p : String → Node → Prop} {members : List (Node × Node)}
    (keys : ∀ m ∈ members, ∃ key, m.1.text? = some key)
    (h : ∀ m ∈ members, ∀ key, Exactly (value key) (p key) m.2) :
    Exactly (ObjectOf d value)
      (fun members => ∀ m ∈ members, ∀ key, m.1.text? = some key → p key m.2) members := by
  constructor
  · rintro _ k ⟨each⟩
    refine each.forall fun m hm values k hvalue => ?_
    -- a key that is a scalar is spelled in one way, so the value is read for just that key
    obtain ⟨key, hkey⟩ := keys m hm
    cases hvalue with
    | intro spelled hv =>
      obtain ⟨rfl, rfl⟩ := (through_spelled hkey).1 spelled
      obtain ⟨rfl, hp⟩ := (h _ hm _).1 _ _ hv
      exact ⟨rfl, fun key hkey' => Option.some.inj (hkey.symm.trans hkey') ▸ hp⟩
  · intro hp
    have hvalues : ∀ m ∈ members, ∃ values, MemberOf d value m values 0 := by
      intro m hm
      obtain ⟨key, hkey⟩ := keys m hm
      obtain ⟨tree?, htree⟩ := (h m hm key).2 (hp m hm key hkey)
      exact ⟨_, .intro ((through_spelled hkey).2 ⟨rfl, rfl⟩) htree⟩
    obtain ⟨values, each⟩ := exists_each hvalues
    exact ⟨_, .intro each⟩

theorem exactly_collected {ofItems : Nat → Meaning (List Node) Json}
    {ofMembers : Nat → Meaning (List (Node × Node)) Json} {item : Node → Prop}
    {member : String → Node → Prop}
    (hitems : ∀ levels items, (∀ n ∈ items, n.Plain levels) →
      Exactly (ofItems levels) (fun items => ∀ n ∈ items, item n) items)
    (hmembers : ∀ levels (members : List (Node × Node)),
      (∀ m ∈ members, ∃ key, m.1.text? = some key) → (∀ m ∈ members, m.2.Plain levels) →
        Exactly (ofMembers levels)
          (fun members => ∀ m ∈ members, ∀ key, m.1.text? = some key → member key m.2) members)
    {levels : Nat} {n : Node} (plain : n.Plain levels) :
    Exactly (d.Through (Collected ofItems ofMembers levels)) (Node.Offers item member) n := by
  refine exactly_through plain.isDirect ?_
  cases plain with
  | scalar text isPlain mark =>
    constructor
    · rintro _ _ ⟨h⟩
      exact ⟨rfl, (exists_scalarTree mark text isPlain).1 ⟨_, h⟩⟩
    · intro h
      obtain ⟨tree, htree⟩ := (exists_scalarTree mark text isPlain).2 h
      exact ⟨tree, .scalar htree⟩
  | @sequence levels items _ _ each =>
    obtain ⟨himp, hexists⟩ := hitems levels items each
    constructor
    · rintro tree k h
      cases h with
      | sequence _ h => exact himp tree k h
    · intro h
      obtain ⟨tree, htree⟩ := hexists h
      exact ⟨tree, .sequence rfl htree⟩
  | @mapping levels members _ _ keys each =>
    obtain ⟨himp, hexists⟩ := hmembers levels members keys each
    constructor
    · rintro tree k h
      cases h with
      | mapping _ h => exact himp tree k h
    · intro h
      obtain ⟨tree, htree⟩ := hexists h
      exact ⟨tree, .mapping rfl htree⟩
  | void mark =>
    constructor
    · rintro _ _ ⟨⟩
      exact ⟨rfl, trivial⟩
    · exact fun _ => ⟨.null, .void⟩

end Yaml

namespace Kind

variable {d : Document}

theorem exactly_sequence {item : Kind}
    (h : ∀ levels n, n.Plain levels → Exactly (item.Denotes d levels) item.Suits n) {levels : Nat}
    {n : Node} (plain : n.Plain levels) :
    Exactly (d.Through (Collected (fun levels => ArrayOf (item.Denotes d levels))
      (fun _ => PassedOver) levels)) (Node.Offers (fun n => item.Suits n) fun _ _ => True) n := by
  refine exactly_collected (fun levels items each => ?_) (fun levels members _ _ => ?_) plain
  · exact exactly_arrayOf fun n hn => h levels n (each n hn)
  · constructor
    · rintro _ _ ⟨⟩
      exact ⟨rfl, fun _ _ _ _ => trivial⟩
    · exact fun _ => ⟨_, .intro members⟩

theorem exactly_fieldDenotes {fields : List (Field Kind)} (h : ∀ f ∈ fields, ∀ levels n,
      n.Plain levels → Exactly (f.kind.Denotes d levels) f.kind.Suits n) (key : String)
    {levels : Nat} {n : Node} (plain : n.Plain levels) :
    Exactly (FieldDenotes d fields key levels) (FieldSuits fields key) n := by
  induction fields with
  | nil => exact ⟨fun _ _ h => ⟨h.2, trivial⟩, fun _ => ⟨none, rfl, rfl⟩⟩
  | cons f fields ih =>
    obtain ⟨hf, hfields⟩ := List.forall_mem_cons.1 h
    by_cases hkey : f.key = key
    · simp only [Exactly, FieldDenotes, FieldSuits, if_pos hkey]
      obtain ⟨himp, hexists⟩ := hf levels n plain
      constructor
      · rintro _ k ⟨tree, rfl, h⟩
        exact himp tree k h
      · intro h
        obtain ⟨tree, htree⟩ := hexists h
        exact ⟨some tree, tree, rfl, htree⟩
    · simpa only [Exactly, FieldDenotes, FieldSuits, if_neg hkey] using ih hfields

/-- Plain nodes stand for trees without following aliases, and those do that have scalars wherever
scalars are wanted. -/
theorem exactly_denotes (kind : Kind) {levels : Nat} {n : Node} (plain : n.Plain levels) :
    Exactly (kind.Denotes d levels) kind.Suits n := by
  induction kind generalizing levels n with
  | bytes size => exact exactly_spelled plain.isDirect
  | uint width => exact exactly_spelled plain.isDirect
  | byteList max => exact exactly_spelled plain.isDirect
  | vector item count ih => exact exactly_sequence (fun levels n => ih) plain
  | list item max ih => exact exactly_sequence (fun levels n => ih) plain
  | container name fields ih =>
    refine exactly_collected (fun levels items each => ?_)
      (fun levels members keys each => ?_) plain
    · exact exactly_arrayOf fun n hn => exactly_spelled (each n hn).isDirect
    · exact exactly_objectOf keys fun m hm key =>
        exactly_fieldDenotes (fun f hf levels n => ih f hf) key (each m hm)

end Kind

namespace Schema

variable {s : Schema} {text : String}

/-- A document is one node only. -/
theorem denotesTree_iff (whole : (Document.ofText text).isWhole = true) {root : Node}
    (hroot : (Document.ofText text).steps = root.steps) {tree : Json} :
    s.DenotesTree text tree ↔ ∃ k, s.kind.Denotes (Document.ofText text) maxLevels root tree k ∧
      k ≤ (Document.ofText text).maxJumps := by
  have nests := Document.nests_of_isWhole whole
  constructor
  · rintro ⟨-, root', k, hroot', hdenotes, hk⟩
    have hread := (Kind.readNode_root nests hroot' _ _ _ _).2 ⟨k, hdenotes, hk, rfl⟩
    obtain ⟨k, hdenotes, hk, -⟩ := (Kind.readNode_root nests hroot _ _ _ _).1 hread
    exact ⟨k, hdenotes, hk⟩
  · rintro ⟨k, hdenotes, hk⟩
    exact ⟨whole, root, k, hroot, hdenotes, hk⟩

theorem exists_denotesTree_iff (whole : (Document.ofText text).isWhole = true) {root : Node}
    (hroot : (Document.ofText text).steps = root.steps) (plain : root.Plain maxLevels) :
    (∃ tree, s.DenotesTree text tree) ↔ s.kind.Suits root := by
  obtain ⟨himp, hexists⟩ := Kind.exactly_denotes (d := Document.ofText text) s.kind plain
  simp only [denotesTree_iff whole hroot]
  constructor
  · rintro ⟨tree, k, hdenotes, -⟩
    exact (himp tree k hdenotes).2
  · intro h
    obtain ⟨tree, htree⟩ := hexists h
    exact ⟨tree, 0, htree, Nat.zero_le _⟩

/-- A text that denotes a tree is read as the tree. -/
theorem ofYaml_of_denotesTree {tree : Json} (h : s.DenotesTree text tree) :
    s.ofYaml text = s.ofTree tree := by
  unfold ofYaml
  rw [treeOfYaml_eq_ok.2 h]

/-- A text that denotes no tree is unreadable. -/
theorem ofYaml_of_not_denotesTree (h : ¬∃ tree, s.DenotesTree text tree) :
    ∃ fault, s.ofYaml text = .error (.text (.parse fault)) := by
  unfold ofYaml
  cases hread : s.treeOfYaml text with
  | ok tree => exact absurd ⟨tree, treeOfYaml_eq_ok.1 hread⟩ h
  | error fault => exact ⟨fault, rfl⟩

/-- **How reading a YAML text fails.**  A single document is a node.  Where it denotes a tree the
text is read as the tree, and it fails, if it does, for what the tree holds or lacks.  It is refused
as unreadable exactly if it denotes none.  A plain node denotes a tree exactly if it has no sequence
or mapping where a scalar is wanted, and no integer below those of 64 bits where a sequence or a
mapping is. -/
theorem ofYaml_fault (s : Schema) (text : String) :
    ((Document.ofText text).isWhole = true → ∃ root : Node,
      (Document.ofText text).steps = root.steps ∧
        (root.Plain maxLevels → ((∃ tree, s.DenotesTree text tree) ↔ s.kind.Suits root))) ∧
    (∀ tree, s.DenotesTree text tree → s.ofYaml text = s.ofTree tree) ∧
    ((∃ fault, s.ofYaml text = .error (.text (.parse fault))) ↔
      ¬∃ tree, s.DenotesTree text tree) ∧
    ∀ e, s.ofYaml text = .error e →
      ∃ fault, e = .text fault ∧ ((∃ f, fault = .parse f) ∨ fault.IsVocabulary) := by
  refine ⟨fun whole => ?_, fun tree => ofYaml_of_denotesTree, ⟨?_, ofYaml_of_not_denotesTree⟩,
    fun e he => ?_⟩
  · obtain ⟨root, hroot⟩ := (Document.nests_of_isWhole whole).root
    exact ⟨root, hroot, exists_denotesTree_iff whole hroot⟩
  · rintro ⟨fault, hfault⟩ ⟨tree, htree⟩
    rw [ofYaml_of_denotesTree htree] at hfault
    obtain ⟨_, hparse, hvocabulary⟩ := exists_vocabulary_of_ofTree hfault
    cases hparse
    exact hvocabulary
  · by_cases h : ∃ tree, s.DenotesTree text tree
    · obtain ⟨tree, htree⟩ := h
      rw [ofYaml_of_denotesTree htree] at he
      obtain ⟨fault, rfl, hvocabulary⟩ := exists_vocabulary_of_ofTree he
      exact ⟨fault, rfl, .inr hvocabulary⟩
    · obtain ⟨f, hf⟩ := ofYaml_of_not_denotesTree h
      exact ⟨.parse f, Except.error.inj (he.symm.trans hf), .inl ⟨f, rfl⟩⟩

/-- A list of one item where an integer belongs: a single document, plain and nested two levels, is
refused as unreadable. -/
theorem ofYaml_sequence_unreadable :
    let s : Schema := ⟨"Header", [⟨"slot", .uint 8, .reject⟩]⟩
    let root : Node := .mapping none [(.scalar "slot" true none ⟨1, 0, 1⟩,
      .sequence none [.scalar "1" true none ⟨8, 0, 8⟩] ⟨7, 0, 7⟩ ⟨9, 0, 9⟩)] ⟨0, 0, 0⟩ ⟨10, 0, 10⟩
    (Document.ofText "\x7bslot: [1]\x7d").isWhole = true ∧
      (Document.ofText "\x7bslot: [1]\x7d").steps = root.steps ∧ root.Plain 2 ∧
        s.ofYaml "\x7bslot: [1]\x7d" =
          .error (.text (.parse (.yaml ⟨[.key "slot"], .sequence, .scalar, ⟨7, 0, 7⟩⟩))) := by
  intro s root
  refine ⟨?_, ?_, ?_, ?_⟩
  · decide +kernel
  · decide +kernel
  · refine .mapping (List.forall_mem_singleton.2 ⟨"slot", rfl⟩) (List.forall_mem_singleton.2 ?_)
    exact .sequence (List.forall_mem_singleton.2 (.scalar _ _ _))
  · rfl

end Schema

end SszRecord

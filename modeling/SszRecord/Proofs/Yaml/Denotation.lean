/-
What YAML documents denote.

Read with the help of a kind, a node stands for a tree (`Kind.Denotes`), and following aliases on
the way there is counted.  The definition is by the kind and by the shapes of nodes alone; paths,
marks and the steps that are left do not come into it.

* `Kind.yields_readNode` : reading the steps of a node gives the trees that it denotes;
* `Schema.treeOfYaml_eq_ok` : the tree of a text is the tree that its document denotes.
-/
import Mathlib
import SszRecord.Proofs.Yaml.Nodes
import SszRecord.Proofs.Yaml.Reading

namespace SszRecord.Yaml

/-! ### Trees of nodes -/

/-- What may be read as what, with how many aliases followed. -/
abbrev Meaning (α β : Type) := α → β → Nat → Prop

/-- A node by itself, or behind an alias of it. -/
inductive Document.Through {β : Type} (d : Document) (S : Meaning Node β) : Meaning Node β
  | here {n : Node} {b : β} {k : Nat} (direct : n.IsDirect) (h : S n b k) : Through d S n b k
  | behind {n : Node} {anchor : Nat} {mark : Mark} {rest : List Step} {b : β} {k : Nat}
      (direct : n.IsDirect) (target : d.target anchor = n.steps ++ rest) (h : S n b k) :
      Through d S (.reference anchor mark) b (k + 1)

/-- One after another. -/
inductive Each {α β : Type} (S : Meaning α β) : Meaning (List α) (List β)
  | nil : Each S [] [] 0
  | cons {a : α} {b : β} {as : List α} {bs : List β} {m n : Nat} (head : S a b m)
      (tail : Each S as bs n) : Each S (a :: as) (b :: bs) (m + n)

/-- A scalar as it is written. -/
inductive Spelled : Meaning Node Json
  | scalar (text : String) (isPlain : Bool) (tag : Option Bytes) (mark : Mark) :
      Spelled (.scalar text isPlain tag mark) (.string text) 0

/-- A node where a sequence or a mapping is wanted; `levels` levels may be opened. -/
inductive Collected (ofItems : Nat → Meaning (List Node) Json)
    (ofMembers : Nat → Meaning (List (Node × Node)) Json) : (levels : Nat) → Meaning Node Json
  | scalar {levels : Nat} {text : String} {isPlain : Bool} {tag : Option Bytes} {mark : Mark}
      {tree : Json} (h : scalarTree [] .scalar mark text isPlain tag = .ok tree) :
      Collected ofItems ofMembers levels (.scalar text isPlain tag mark) tree 0
  | sequence {levels : Nat} {tag : Option Bytes} {items : List Node} {mark stop : Mark}
      {tree : Json} {k : Nat} (standard : isLocalTag tag = false)
      (h : ofItems levels items tree k) :
      Collected ofItems ofMembers (levels + 1) (.sequence tag items mark stop) tree k
  | mapping {levels : Nat} {tag : Option Bytes} {members : List (Node × Node)} {mark stop : Mark}
      {tree : Json} {k : Nat} (standard : isLocalTag tag = false)
      (h : ofMembers levels members tree k) :
      Collected ofItems ofMembers (levels + 1) (.mapping tag members mark stop) tree k
  | void {levels : Nat} {mark : Mark} : Collected ofItems ofMembers levels (.void mark) .null 0

/-- An array of what items stand for. -/
inductive ArrayOf (item : Meaning Node Json) : Meaning (List Node) Json
  | intro {items : List Node} {trees : List Json} {k : Nat} (each : Each item items trees k) :
      ArrayOf item items (.array trees) k

/-- A mapping that is passed over. -/
inductive PassedOver : Meaning (List (Node × Node)) Json
  | intro (members : List (Node × Node)) : PassedOver members (.object []) 0

/-- A member of a mapping, of which the key is a scalar and the value may be left out. -/
inductive MemberOf (d : Document) (value : String → Meaning Node (Option Json)) :
    Meaning (Node × Node) (List (String × Json))
  | intro {key : Node} {name : String} {v : Node} {tree? : Option Json} {m n : Nat}
      (spelled : d.Through Spelled key (.string name) m) (h : value name v tree? n) :
      MemberOf d value (key, v) (tree?.map (name, ·)).toList (m + n)

/-- An object of what the members of a mapping stand for. -/
inductive ObjectOf (d : Document) (value : String → Meaning Node (Option Json)) :
    Meaning (List (Node × Node)) Json
  | intro {members : List (Node × Node)} {values : List (List (String × Json))} {k : Nat}
      (each : Each (MemberOf d value) members values k) :
      ObjectOf d value members (.object (Json.collect values.flatten)) k

end Yaml

open Yaml

namespace Kind

mutual

/-- What a node stands for where a kind belongs; `levels` levels may be opened.  Items of a sequence
where a container belongs are taken as scalars, and a mapping where a sequence belongs as empty. -/
def Denotes (d : Document) : Kind → (levels : Nat) → Meaning Node Json
  | .bytes _, _ => d.Through Spelled
  | .uint _, _ => d.Through Spelled
  | .byteList _, _ => d.Through Spelled
  | .vector item _, levels =>
    d.Through (Collected (fun levels => ArrayOf (item.Denotes d levels))
      (fun _ => PassedOver) levels)
  | .list item _, levels =>
    d.Through (Collected (fun levels => ArrayOf (item.Denotes d levels))
      (fun _ => PassedOver) levels)
  | .container _ fields, levels =>
    d.Through (Collected (fun _ => ArrayOf (d.Through Spelled))
      (fun levels => ObjectOf d fun key => FieldDenotes d fields key levels) levels)

/-- What the value of a key stands for: nothing if no field has the key, and it may be any node
then. -/
def FieldDenotes (d : Document) : List (Field Kind) → (key : String) → (levels : Nat) →
    Meaning Node (Option Json)
  | [], _, _, _, tree?, k => tree? = none ∧ k = 0
  | ⟨key', kind, _⟩ :: rest, key, levels, n, tree?, k =>
    if key' = key then ∃ tree, tree? = some tree ∧ kind.Denotes d levels n tree k
    else FieldDenotes d rest key levels n tree? k

end

end Kind

namespace Yaml

/-! ### Readers -/

variable {α β : Type}

/-- Reading steps gives what `S` says, as long as no more than `max` aliases are followed. -/
def Yields (max : Nat) (read : Walk → Except ParseFault (α × Walk)) (steps : List Step)
    (S : α → Nat → Prop) : Prop :=
  ∀ rest jumps, jumps ≤ max → ∀ a q, read ⟨steps ++ rest, jumps⟩ = .ok (a, q) ↔
    ∃ k, S a k ∧ jumps + k ≤ max ∧ q = ⟨rest, jumps + k⟩

section Readers

variable {max : Nat} {read : Walk → Except ParseFault (α × Walk)} {steps steps' : List Step}
  {S : α → Nat → Prop}

theorem Yields.congr {read' : Walk → Except ParseFault (α × Walk)} (h : Yields max read steps S)
    (same : ∀ rest jumps, read' ⟨steps ++ rest, jumps⟩ = read ⟨steps ++ rest, jumps⟩) :
    Yields max read' steps S := by
  intro rest jumps hjumps a q
  rw [same]
  exact h rest jumps hjumps a q

theorem Yields.iff {S' : α → Nat → Prop} (h : Yields max read steps S)
    (same : ∀ a k, S' a k ↔ S a k) : Yields max read steps S' := by
  intro rest jumps hjumps a q
  simp only [same]
  exact h rest jumps hjumps a q

/-- What is read without following aliases. -/
theorem yields_ok {a : α}
    (h : ∀ rest jumps, read ⟨steps ++ rest, jumps⟩ = .ok (a, ⟨rest, jumps⟩)) :
    Yields max read steps fun b k => b = a ∧ k = 0 := by
  intro rest jumps hjumps b q
  rw [h, Except.ok.injEq, Prod.mk.injEq]
  constructor
  · rintro ⟨rfl, rfl⟩
    exact ⟨0, ⟨rfl, rfl⟩, hjumps, rfl⟩
  · rintro ⟨k, ⟨rfl, rfl⟩, -, rfl⟩
    exact ⟨rfl, rfl⟩

/-- What is refused stands for nothing. -/
theorem yields_error {fault : ParseFault} (h : ∀ p, read p = .error fault)
    (none : ∀ a k, ¬S a k) : Yields max read steps S := by
  intro rest jumps hjumps a q
  rw [h]
  constructor
  · intro h
    cases h
  · rintro ⟨k, hk, -⟩
    exact absurd hk (none a k)

theorem Yields.bind {next : α → Walk → Except ParseFault (β × Walk)} {T : α → β → Nat → Prop}
    (h : Yields max read steps S) (hnext : ∀ a, Yields max (next a) steps' (T a)) :
    Yields max (fun p => read p >>= fun v => next v.1 v.2) (steps ++ steps')
      fun b k => ∃ a m n, S a m ∧ T a b n ∧ k = m + n := by
  intro rest jumps hjumps b q
  rw [List.append_assoc, bind_eq_ok]
  constructor
  · rintro ⟨⟨a, p⟩, ha, hb⟩
    obtain ⟨m, hS, hm, rfl⟩ := (h _ jumps hjumps a p).1 ha
    obtain ⟨n, hT, hn, rfl⟩ := (hnext a rest (jumps + m) hm b q).1 hb
    exact ⟨m + n, ⟨a, m, n, hS, hT, rfl⟩, by omega, by rw [Nat.add_assoc]⟩
  · rintro ⟨_, ⟨a, m, n, hS, hT, rfl⟩, hk, rfl⟩
    have hm : jumps + m ≤ max := by omega
    refine ⟨⟨a, ⟨steps' ++ rest, jumps + m⟩⟩, (h _ _ hjumps _ _).2 ⟨m, hS, hm, rfl⟩, ?_⟩
    exact (hnext a rest (jumps + m) hm b _).2 ⟨n, hT, by omega, by rw [Nat.add_assoc]⟩

theorem Yields.map (h : Yields max read steps S) (f : α → β) :
    Yields max (fun p => read p >>= fun v => .ok (f v.1, v.2)) steps
      fun b k => ∃ a, b = f a ∧ S a k := by
  have hok (a : α) : Yields max (fun p => (.ok (f a, p) : Except ParseFault (β × Walk))) []
      fun b k => b = f a ∧ k = 0 := yields_ok fun rest jumps => rfl
  have hbind := h.bind hok
  rw [List.append_nil] at hbind
  refine hbind.iff fun b k => ?_
  constructor
  · rintro ⟨a, rfl, ha⟩
    exact ⟨a, k, 0, ha, ⟨rfl, rfl⟩, rfl⟩
  · rintro ⟨a, m, n, ha, ⟨rfl, rfl⟩, rfl⟩
    exact ⟨a, rfl, ha⟩

end Readers

/-! ### Nodes -/

/-- How often aliases may be followed in a document. -/
def Document.maxJumps (d : Document) : Nat := jumpsPerStep * d.steps.length

theorem atNode_direct (d : Document) (read : Step → Walk → NodeRead) {step : Step}
    (h : ∀ anchor, step.kind ≠ .alias anchor) (rest : List Step) (jumps : Nat) :
    atNode d read ⟨step :: rest, jumps⟩ = read step ⟨rest, jumps⟩ := by
  obtain ⟨kind, mark⟩ := step
  cases kind with
  | «alias» anchor => exact absurd rfl (h anchor)
  | _ => rfl

theorem atNode_alias (d : Document) (read : Step → Walk → NodeRead) (anchor : Nat) (mark : Mark)
    (rest : List Step) (jumps : Nat) :
    atNode d read ⟨⟨.alias anchor, mark⟩ :: rest, jumps⟩ =
      if d.maxJumps < jumps + 1 then malformed
      else
        match d.target anchor with
        | [] => malformed
        | step :: inner => do
          let (tree, q) ← read step ⟨inner, jumps + 1⟩
          return (tree, ⟨rest, q.jumps⟩) := rfl

variable {d : Document}

theorem Document.through_direct {S : Meaning Node β} {n : Node} (direct : n.IsDirect) {b : β}
    {k : Nat} : d.Through S n b k ↔ S n b k := by
  constructor
  · intro h
    cases h with
    | here _ h => exact h
    | behind => cases direct
  · exact .here direct

section AtNode

variable {read : Step → Walk → NodeRead} {S : Meaning Node Json}

/-- Reading the node that an alias leads to; what is left is what stands behind the alias. -/
theorem atNode_behind (h : ∀ n : Node, n.IsDirect → ∀ step rest, n.steps = step :: rest →
      Yields d.maxJumps (read step) rest (S n)) {n : Node} (direct : n.IsDirect) {anchor : Nat}
    {inner : List Step} (target : d.target anchor = n.steps ++ inner) (mark : Mark)
    (rest : List Step) {jumps : Nat} (hjumps : jumps + 1 ≤ d.maxJumps) (tree : Json) (q : Walk) :
    atNode d read ⟨⟨.alias anchor, mark⟩ :: rest, jumps⟩ = .ok (tree, q) ↔
      ∃ k, S n tree k ∧ jumps + 1 + k ≤ d.maxJumps ∧ q = ⟨rest, jumps + 1 + k⟩ := by
  obtain ⟨step, steps, hsteps, -⟩ := n.exists_steps
  have hread := h n direct step steps hsteps inner (jumps + 1) hjumps
  rw [hsteps] at target
  rw [atNode_alias, if_neg (Nat.not_lt.2 hjumps), target, List.cons_append]
  refine bind_eq_ok.trans ?_
  constructor
  · rintro ⟨⟨tree', q'⟩, hq', hq⟩
    obtain ⟨k, hk, hle, rfl⟩ := (hread tree' q').1 hq'
    cases hq
    exact ⟨k, hk, hle, rfl⟩
  · rintro ⟨k, hk, hle, rfl⟩
    exact ⟨(tree, ⟨inner, jumps + 1 + k⟩), (hread tree _).2 ⟨k, hk, hle, rfl⟩, rfl⟩

/-- Reading a node, or the one that an alias leads to. -/
theorem yields_atNode (nests : d.Nests) (h : ∀ n : Node, n.IsDirect → ∀ step rest,
      n.steps = step :: rest → Yields d.maxJumps (read step) rest (S n)) (n : Node) :
    Yields d.maxJumps (atNode d read) n.steps (d.Through S n) := by
  by_cases direct : n.IsDirect
  · obtain ⟨step, rest, hsteps, -, -, hstep⟩ := n.exists_steps
    have hread := h n direct step rest hsteps
    rw [hsteps]
    intro rest' jumps hjumps tree q
    rw [List.cons_append, atNode_direct d read (hstep direct)]
    simp only [Document.through_direct direct]
    exact hread rest' jumps hjumps tree q
  · cases n with
    | reference anchor mark =>
      intro rest jumps hjumps tree q
      show atNode d read ⟨⟨.alias anchor, mark⟩ :: rest, jumps⟩ = _ ↔ _
      constructor
      · -- what is read is the node at the anchor, which is there because the document nests
        intro hq
        have hle : jumps + 1 ≤ d.maxJumps := by
          by_contra hlt
          rw [atNode_alias, if_pos (Nat.not_le.1 hlt)] at hq
          cases hq
        have hne : d.target anchor ≠ [] := by
          intro hnil
          rw [atNode_alias, if_neg (Nat.not_lt.2 hle), hnil] at hq
          cases hq
        obtain ⟨n, hn, inner, target⟩ := nests.anchors anchor hne
        obtain ⟨k, hk, hmax, rfl⟩ := (atNode_behind h hn target mark rest hle tree q).1 hq
        exact ⟨k + 1, .behind hn target hk, by omega, by rw [Nat.add_assoc, Nat.add_comm 1]⟩
      · rintro ⟨_, hk, hmax, rfl⟩
        cases hk with
        | here hn => exact absurd hn direct
        | @behind n _ _ inner _ k hn target hk =>
          refine (atNode_behind h hn target mark rest (by omega) tree _).2 ⟨k, hk, by omega, ?_⟩
          rw [Nat.add_assoc, Nat.add_comm 1]
    | _ => exact absurd trivial direct

end AtNode

/-! ### Scalars -/

theorem yields_readScalar (nests : d.Nests) (path : Path) (n : Node) :
    Yields d.maxJumps (readScalar d path) n.steps (d.Through Spelled n) := by
  refine yields_atNode nests (fun n direct step rest hsteps => ?_) n
  cases n with
  | reference => cases direct
  | scalar text isPlain tag mark =>
    cases hsteps
    refine (yields_ok (a := .string text) fun rest jumps => rfl).iff fun tree k => ?_
    constructor
    · rintro ⟨⟩
      exact ⟨rfl, rfl⟩
    · rintro ⟨rfl, rfl⟩
      exact .scalar text isPlain tag mark
  | sequence tag items mark stop =>
    cases hsteps
    exact yields_error (fun p => rfl) fun tree k => by rintro ⟨⟩
  | mapping tag members mark stop =>
    cases hsteps
    exact yields_error (fun p => rfl) fun tree k => by rintro ⟨⟩
  | void mark =>
    cases hsteps
    exact yields_error (fun p => rfl) fun tree k => by rintro ⟨⟩

theorem integerTree_eq_ok (path : Path) (wanted : Wanted) (mark : Mark) (text : String)
    (value : Int) (tree : Json) : integerTree path wanted mark text value = .ok tree ↔
      integerTree [] .scalar mark text value = .ok tree := by
  unfold integerTree
  split
  · constructor <;> intro h <;> cases h
  · exact Iff.rfl

theorem plainTree_eq_ok (path : Path) (wanted : Wanted) (mark : Mark) (text : String)
    (tree : Json) : plainTree path wanted mark text = .ok tree ↔
      plainTree [] .scalar mark text = .ok tree := by
  unfold plainTree
  split
  · exact Iff.rfl
  · split
    · exact Iff.rfl
    · exact integerTree_eq_ok path wanted mark text _ tree
    · exact Iff.rfl

/-- What a scalar stands for does not depend on where it stands. -/
theorem scalarTree_eq_ok (path : Path) (wanted : Wanted) (mark : Mark) (text : String)
    (isPlain : Bool) (tag : Option Bytes) (tree : Json) :
    scalarTree path wanted mark text isPlain tag = .ok tree ↔
      scalarTree [] .scalar mark text isPlain tag = .ok tree := by
  unfold scalarTree
  split
  · constructor <;> intro h <;> cases h
  · split
    · exact Iff.rfl
    · split
      · split
        · exact integerTree_eq_ok path wanted mark text _ tree
        · exact Iff.rfl
      · split
        · exact Iff.rfl
        · split
          · exact Iff.rfl
          · split
            · exact plainTree_eq_ok path wanted mark text tree
            · exact Iff.rfl

/-! ### Sequences and mappings -/

theorem yields_readItems {readItem : Nat → Walk → NodeRead} {S : Meaning Node Json} {max : Nat}
    (h : ∀ i n, Yields max (readItem i) n.steps (S n)) (items : List Node) (stop : Mark)
    (fuel : Nat) (hfuel : items.length < fuel) (index : Nat) :
    Yields max (readItems readItem fuel index) (Node.itemSteps items ++ [⟨.sequenceEnd, stop⟩])
      (Each S items) := by
  induction items generalizing fuel index with
  | nil =>
    obtain ⟨fuel, rfl⟩ := Nat.exists_eq_succ_of_ne_zero (Nat.ne_zero_of_lt hfuel)
    refine (yields_ok (a := []) fun rest jumps => rfl).iff fun trees k => ?_
    constructor
    · rintro ⟨⟩
      exact ⟨rfl, rfl⟩
    · rintro ⟨rfl, rfl⟩
      exact .nil
  | cons n items ih =>
    obtain ⟨fuel, rfl⟩ := Nat.exists_eq_succ_of_ne_zero (Nat.ne_zero_of_lt hfuel)
    have hrest := ih fuel (Nat.lt_of_succ_lt_succ hfuel) (index + 1)
    have hread := (h index n).bind fun item => hrest.map (item :: ·)
    rw [Node.itemSteps, List.append_assoc]
    refine (hread.congr fun rest jumps => ?_).iff fun trees k => ?_
    · obtain ⟨step, steps, hsteps, hstep, -⟩ := n.exists_steps
      rw [hsteps, List.append_assoc, List.cons_append, readItems_step readItem hstep]
      rfl
    · constructor
      · rintro ⟨⟩
        exact ⟨_, _, _, ‹_›, ⟨_, rfl, ‹_›⟩, rfl⟩
      · rintro ⟨item, m, k, hitem, ⟨trees, rfl, htrees⟩, rfl⟩
        exact .cons hitem htrees

/-- Items are no more than their steps. -/
theorem length_itemSteps (items : List Node) : items.length ≤ (Node.itemSteps items).length := by
  induction items with
  | nil => exact Nat.le_refl 0
  | cons n items ih =>
    obtain ⟨step, steps, hsteps, -⟩ := n.exists_steps
    rw [Node.itemSteps, hsteps, List.length_append, List.length_cons, List.length_cons]
    omega

theorem length_memberSteps (members : List (Node × Node)) :
    2 * members.length ≤ (Node.memberSteps members).length := by
  induction members with
  | nil => exact Nat.le_refl 0
  | cons m members ih =>
    obtain ⟨step, steps, hsteps, -⟩ := m.1.exists_steps
    obtain ⟨step', steps', hsteps', -⟩ := m.2.exists_steps
    rw [Node.memberSteps, hsteps, hsteps', List.length_append, List.length_append,
      List.length_cons, List.length_cons, List.length_cons]
    omega

theorem yields_array {readItem : Nat → Walk → NodeRead} {S : Meaning Node Json} {max : Nat}
    (h : ∀ i n, Yields max (readItem i) n.steps (S n)) (items : List Node) (stop : Mark) :
    Yields max (fun p => do
        let (items, p) ← readItems readItem (p.rest.length + 1) 0 p
        return (.array items, p)) (Node.itemSteps items ++ [⟨.sequenceEnd, stop⟩])
      (ArrayOf S items) := by
  intro rest jumps hjumps tree q
  have hlen := length_itemSteps items
  refine ((yields_readItems h items stop _ ?_ 0).map Json.array rest jumps hjumps tree q).trans
    (exists_congr fun k => and_congr_left fun _ => ?_)
  · rw [List.length_append, List.length_append]
    omega
  · constructor
    · rintro ⟨trees, rfl, htrees⟩
      exact ⟨htrees⟩
    · rintro ⟨htrees⟩
      exact ⟨_, rfl, htrees⟩

theorem readMembers_cons (readValue : String → Segment → Walk →
      Except ParseFault (Option Json × Walk)) {step : Step} (h : step.kind ≠ .mappingEnd)
    (steps : List Step) (jumps fuel : Nat) :
    readMembers d readValue (fuel + 1) ⟨step :: steps, jumps⟩ =
      (readKey d ⟨step :: steps, jumps⟩ >>= fun key =>
        readValue key.1 (keySegment ⟨step :: steps, jumps⟩) key.2 >>= fun value =>
          readMembers d readValue fuel value.2 >>= fun members =>
            .ok ((value.1.map (key.1, ·)).toList ++ members.1, members.2)) := by
  obtain ⟨kind, m⟩ := step
  cases kind with
  | mappingEnd => exact absurd rfl h
  | _ => rfl

theorem keySegment_cons (step : Step) (rest rest' : List Step) (jumps jumps' : Nat) :
    keySegment ⟨step :: rest, jumps⟩ = keySegment ⟨step :: rest', jumps'⟩ := by
  obtain ⟨kind, m⟩ := step
  cases kind <;> rfl

theorem readKey_eq_ok {p q : Walk} {key : String} :
    readKey d p = .ok (key, q) ↔ readScalar d [] p = .ok (.string key, q) := by
  rw [readKey]
  split
  · rename_i key' p' h
    rw [h]
    simp only [Except.ok.injEq, Prod.mk.injEq, Json.string.injEq]
  · rename_i h
    constructor
    · intro hq
      cases hq
    · intro hq
      exact absurd hq (h key q)

theorem yields_readKey (nests : d.Nests) (n : Node) :
    Yields d.maxJumps (readKey d) n.steps fun key k => d.Through Spelled n (.string key) k := by
  intro rest jumps hjumps key q
  exact readKey_eq_ok.trans (yields_readScalar nests [] n rest jumps hjumps (.string key) q)

theorem yields_readMembers (nests : d.Nests)
    {readValue : String → Segment → Walk → Except ParseFault (Option Json × Walk)}
    {S : String → Meaning Node (Option Json)}
    (h : ∀ key segment n, Yields d.maxJumps (readValue key segment) n.steps (S key n))
    (members : List (Node × Node)) (stop : Mark) (fuel : Nat) (hfuel : members.length < fuel) :
    Yields d.maxJumps (readMembers d readValue fuel)
      (Node.memberSteps members ++ [⟨.mappingEnd, stop⟩])
      fun ms k => ∃ values, ms = values.flatten ∧ Each (MemberOf d S) members values k := by
  induction members generalizing fuel with
  | nil =>
    obtain ⟨fuel, rfl⟩ := Nat.exists_eq_succ_of_ne_zero (Nat.ne_zero_of_lt hfuel)
    refine (yields_ok (a := []) fun rest jumps => rfl).iff fun ms k => ?_
    constructor
    · rintro ⟨_, rfl, ⟨⟩⟩
      exact ⟨rfl, rfl⟩
    · rintro ⟨rfl, rfl⟩
      exact ⟨[], rfl, .nil⟩
  | cons m members ih =>
    obtain ⟨fuel, rfl⟩ := Nat.exists_eq_succ_of_ne_zero (Nat.ne_zero_of_lt hfuel)
    obtain ⟨key, value⟩ := m
    have hrest := ih fuel (Nat.lt_of_succ_lt_succ hfuel)
    obtain ⟨step, steps, hsteps, -, hstep, -⟩ := key.exists_steps
    -- the place of the value depends on the first step of its key alone
    have hread := (yields_readKey nests key).bind fun name =>
      (h name (keySegment ⟨[step], 0⟩) value).bind fun tree? =>
        hrest.map ((tree?.map (name, ·)).toList ++ ·)
    rw [Node.memberSteps, List.append_assoc, List.append_assoc]
    refine (hread.congr fun rest jumps => ?_).iff fun ms k => ?_
    · rw [hsteps, List.append_assoc, List.cons_append, readMembers_cons readValue hstep,
        keySegment_cons step _ [] _ 0]
    · constructor
      · rintro ⟨_, rfl, hmembers⟩
        cases hmembers with
        | cons hmember hmembers =>
          cases hmember with
          | intro hkey hvalue =>
            exact ⟨_, _, _, hkey, ⟨_, _, _, hvalue, ⟨_, rfl, _, rfl, hmembers⟩, rfl⟩,
              Nat.add_assoc _ _ _⟩
      · rintro ⟨name, m, _, hkey, ⟨tree?, m', n', hvalue, htail, rfl⟩, rfl⟩
        obtain ⟨_, rfl, values, rfl, hmembers⟩ := htail
        exact ⟨(tree?.map (name, ·)).toList :: values, rfl,
          Nat.add_assoc _ _ _ ▸ .cons (.intro hkey hvalue) hmembers⟩

theorem yields_object (nests : d.Nests)
    {readValue : String → Segment → Walk → Except ParseFault (Option Json × Walk)}
    {S : String → Meaning Node (Option Json)}
    (h : ∀ key segment n, Yields d.maxJumps (readValue key segment) n.steps (S key n))
    (members : List (Node × Node)) (stop : Mark) :
    Yields d.maxJumps (fun p => do
        let (members, p) ← readMembers d readValue (p.rest.length + 1) p
        return (.object (Json.collect members), p))
      (Node.memberSteps members ++ [⟨.mappingEnd, stop⟩]) (ObjectOf d S members) := by
  intro rest jumps hjumps tree q
  have hlen := length_memberSteps members
  refine ((yields_readMembers nests h members stop _ ?_).map
    (fun ms => Json.object (Json.collect ms)) rest jumps hjumps tree q).trans
    (exists_congr fun k => and_congr_left fun _ => ?_)
  · rw [List.length_append, List.length_append]
    omega
  · constructor
    · rintro ⟨_, rfl, values, rfl, hvalues⟩
      exact ⟨hvalues⟩
    · rintro ⟨hvalues⟩
      exact ⟨_, rfl, _, rfl, hvalues⟩

/-! ### Passing over -/

/-- Passing over steps that stand inside of something. -/
def Passes (steps : List Step) : Prop := ∀ level rest,
  behindNode (level + 1) (steps ++ rest) = behindNode (level + 1) rest

theorem passes_items {items : List Node} (h : ∀ n ∈ items, Passes n.steps) :
    Passes (Node.itemSteps items) := by
  induction items with
  | nil => exact fun _ _ => rfl
  | cons n items ih =>
    obtain ⟨hn, hitems⟩ := List.forall_mem_cons.1 h
    intro level rest
    rw [Node.itemSteps, List.append_assoc, hn, ih hitems]

theorem passes_members {members : List (Node × Node)}
    (h : ∀ m ∈ members, Passes m.1.steps ∧ Passes m.2.steps) :
    Passes (Node.memberSteps members) := by
  induction members with
  | nil => exact fun _ _ => rfl
  | cons m members ih =>
    obtain ⟨⟨hkey, hvalue⟩, hmembers⟩ := List.forall_mem_cons.1 h
    intro level rest
    rw [Node.memberSteps, List.append_assoc, List.append_assoc, hkey, hvalue, ih hmembers]

/-- A node is passed over as a whole. -/
theorem behindNode_steps (n : Node) (level : Nat) (rest : List Step) :
    behindNode level (n.steps ++ rest) =
      if level = 0 then some rest else behindNode level rest := by
  have passes {n : Node} (h : ∀ level rest, behindNode level (n.steps ++ rest) =
      if level = 0 then some rest else behindNode level rest) : Passes n.steps :=
    fun level rest => h (level + 1) rest
  -- what stands in brackets is passed over at a higher level, so only the bracket behind it counts
  induction n generalizing level rest with
  | reference => rfl
  | scalar => rfl
  | void => rfl
  | sequence tag items mark stop ih =>
    rw [Node.steps, List.cons_append, List.append_assoc]
    exact passes_items (fun n hn => passes (ih n hn)) level (⟨.sequenceEnd, stop⟩ :: rest)
  | mapping tag members mark stop ih =>
    rw [Node.steps, List.cons_append, List.append_assoc]
    exact passes_members (fun m hm => ⟨passes (ih m hm).1, passes (ih m hm).2⟩) level
      (⟨.mappingEnd, stop⟩ :: rest)

theorem skipNode_steps (n : Node) (rest : List Step) (jumps : Nat) :
    skipNode ⟨n.steps ++ rest, jumps⟩ = .ok ⟨rest, jumps⟩ := by
  rw [skipNode, behindNode_steps, if_pos rfl]

theorem skipEntries_cons (n : Node) (rest : List Step) (jumps fuel : Nat) :
    skipEntries (fuel + 1) ⟨n.steps ++ rest, jumps⟩ = skipEntries fuel ⟨rest, jumps⟩ := by
  have hskip := skipNode_steps n rest jumps
  obtain ⟨⟨kind, mark⟩, steps, hsteps, -, hstep, -⟩ := n.exists_steps
  rw [hsteps, List.cons_append] at hskip ⊢
  cases kind with
  | mappingEnd => exact absurd rfl hstep
  | _ => exact congrArg (· >>= skipEntries fuel) hskip

theorem skipEntries_steps (members : List (Node × Node)) (stop : Mark) (rest : List Step)
    (jumps fuel : Nat) (hfuel : 2 * members.length < fuel) :
    skipEntries fuel ⟨Node.memberSteps members ++ ⟨.mappingEnd, stop⟩ :: rest, jumps⟩ =
      .ok ⟨rest, jumps⟩ := by
  induction members generalizing fuel with
  | nil =>
    obtain ⟨fuel, rfl⟩ := Nat.exists_eq_succ_of_ne_zero (Nat.ne_zero_of_lt hfuel)
    rfl
  | cons m members ih =>
    rw [List.length_cons] at hfuel
    obtain ⟨fuel, rfl⟩ : ∃ n, fuel = n + 1 + 1 := ⟨fuel - 2, by omega⟩
    rw [Node.memberSteps, List.append_assoc, List.append_assoc, skipEntries_cons, skipEntries_cons,
      ih fuel (by omega)]

theorem yields_passedOver (max : Nat) (members : List (Node × Node)) (stop : Mark) :
    Yields max (fun p => do return (.object [], ← skipEntries (p.rest.length + 1) p))
      (Node.memberSteps members ++ [⟨.mappingEnd, stop⟩]) (PassedOver members) := by
  refine (yields_ok (a := .object []) fun rest jumps => ?_).iff fun tree k => ?_
  · have hlen := length_memberSteps members
    have hskip := skipEntries_steps members stop rest jumps
      ((Node.memberSteps members ++ ⟨.mappingEnd, stop⟩ :: rest).length + 1)
      (by rw [List.length_append]; omega)
    rw [List.append_assoc]
    exact congrArg (· >>= fun q => pure (Json.object [], q)) hskip
  · constructor
    · rintro ⟨⟩
      exact ⟨rfl, rfl⟩
    · rintro ⟨rfl, rfl⟩
      exact .intro members

/-! ### Kinds -/

/-- Opening a sequence or a mapping takes a level and a tag that is not local. -/
theorem yields_enter {max levels : Nat} {tag : Option Bytes} {fault : ParseFault}
    {read : Nat → Walk → NodeRead} {steps : List Step} {S : Nat → Json → Nat → Prop}
    (h : ∀ levels, Yields max (read levels) steps (S levels)) :
    Yields max (fun p =>
        if isLocalTag tag then .error fault
        else
          match levels with
          | 0 => malformed
          | levels + 1 => read levels p) steps
      fun tree k => isLocalTag tag = false ∧ ∃ l, levels = l + 1 ∧ S l tree k := by
  cases htag : isLocalTag tag with
  | true => exact yields_error (fun p => rfl) fun tree k h => Bool.false_ne_true h.1.symm
  | false =>
    cases levels with
    | zero =>
      refine yields_error (fun p => rfl) ?_
      rintro tree k ⟨-, l, hl, -⟩
      cases hl
    | succ levels =>
      refine ((h levels).congr fun rest jumps => rfl).iff fun tree k => ?_
      constructor
      · rintro ⟨-, l, hl, h⟩
        cases hl
        exact h
      · exact fun h => ⟨rfl, levels, rfl, h⟩

theorem yields_readCollection (nests : d.Nests) (wanted : Wanted) (path : Path)
    {ofSequence ofMapping : Nat → Walk → NodeRead} {ofItems : Nat → Meaning (List Node) Json}
    {ofMembers : Nat → Meaning (List (Node × Node)) Json}
    (hitems : ∀ levels items stop, Yields d.maxJumps (ofSequence levels)
      (Node.itemSteps items ++ [⟨.sequenceEnd, stop⟩]) (ofItems levels items))
    (hmembers : ∀ levels members stop, Yields d.maxJumps (ofMapping levels)
      (Node.memberSteps members ++ [⟨.mappingEnd, stop⟩]) (ofMembers levels members))
    (levels : Nat) (n : Node) :
    Yields d.maxJumps (readCollection d wanted path levels ofSequence ofMapping) n.steps
      (d.Through (Collected ofItems ofMembers levels) n) := by
  unfold readCollection
  refine yields_atNode nests (fun n direct step rest hsteps => ?_) n
  cases n with
  | reference => cases direct
  | scalar text isPlain tag mark =>
    cases hsteps
    intro rest jumps hjumps tree q
    have htree := scalarTree_eq_ok path wanted mark text isPlain tag
    refine bind_eq_ok.trans ?_
    constructor
    · rintro ⟨tree', h, hq⟩
      cases hq
      exact ⟨0, .scalar ((htree tree).1 h), hjumps, rfl⟩
    · rintro ⟨_, ⟨h⟩, -, rfl⟩
      exact ⟨tree, (htree tree).2 h, rfl⟩
  | sequence tag items mark stop =>
    cases hsteps
    refine (yields_enter fun levels => hitems levels items stop).iff fun tree k => ?_
    constructor
    · rintro ⟨⟩
      exact ⟨‹_›, _, rfl, ‹_›⟩
    · rintro ⟨standard, l, rfl, h⟩
      exact .sequence standard h
  | mapping tag members mark stop =>
    cases hsteps
    refine (yields_enter fun levels => hmembers levels members stop).iff fun tree k => ?_
    constructor
    · rintro ⟨⟩
      exact ⟨‹_›, _, rfl, ‹_›⟩
    · rintro ⟨standard, l, rfl, h⟩
      exact .mapping standard h
  | void mark =>
    cases hsteps
    refine (yields_ok (a := .null) fun rest jumps => rfl).iff fun tree k => ?_
    constructor
    · rintro ⟨⟩
      exact ⟨rfl, rfl⟩
    · rintro ⟨rfl, rfl⟩
      exact .void

end Yaml

namespace Kind

variable {d : Document}

theorem yields_readFieldNode {fields : List (Field Kind)}
    (h : ∀ f ∈ fields, ∀ levels path n,
      Yields d.maxJumps (f.kind.readNode d levels path) n.steps (f.kind.Denotes d levels n))
    (key : String) (levels : Nat) (path : Yaml.Path) (n : Node) :
    Yields d.maxJumps (readFieldNode d fields key levels path) n.steps
      (FieldDenotes d fields key levels n) := by
  induction fields with
  | nil =>
    refine yields_ok (a := none) fun rest jumps => ?_
    rw [readFieldNode, skipNode_steps]
    rfl
  | cons f fields ih =>
    obtain ⟨hf, hfields⟩ := List.forall_mem_cons.1 h
    by_cases hkey : f.key = key
    · refine (((hf levels path n).map some).congr fun rest jumps => ?_).iff fun tree? k => ?_
      · rw [readFieldNode, if_pos hkey]
        rfl
      · rw [FieldDenotes, if_pos hkey]
    · refine ((ih hfields).congr fun rest jumps => ?_).iff fun tree? k => ?_
      · rw [readFieldNode, if_neg hkey]
      · rw [FieldDenotes, if_neg hkey]

/-- **Reading the steps of a node gives the tree that the node denotes**, and fails if it denotes
none. -/
theorem yields_readNode (nests : d.Nests) (kind : Kind) (levels : Nat) (path : Yaml.Path)
    (n : Node) :
    Yields d.maxJumps (kind.readNode d levels path) n.steps (kind.Denotes d levels n) := by
  induction kind generalizing levels path n with
  | bytes size => exact yields_readScalar nests path n
  | uint width => exact yields_readScalar nests path n
  | byteList max => exact yields_readScalar nests path n
  | vector item count ih =>
    exact yields_readCollection nests .sequence path
      (fun levels items stop => yields_array (fun i => ih levels (.index i :: path)) items stop)
      (fun _ => yields_passedOver d.maxJumps) levels n
  | list item max ih =>
    exact yields_readCollection nests .sequence path
      (fun levels items stop => yields_array (fun i => ih levels (.index i :: path)) items stop)
      (fun _ => yields_passedOver d.maxJumps) levels n
  | container name fields ih =>
    exact yields_readCollection nests (.mapping name) path
      (fun levels items stop =>
        yields_array (fun i => yields_readScalar nests (.index i :: path)) items stop)
      (fun levels members stop => yields_object nests (fun key segment =>
        yields_readFieldNode ih key levels (segment :: path)) members stop) levels n

/-- Reading the root of a document. -/
theorem readNode_root (nests : d.Nests) {root : Node} (hroot : d.steps = root.steps) (kind : Kind)
    (levels : Nat) (tree : Json) (q : Walk) :
    kind.readNode d levels [] ⟨d.steps, 0⟩ = .ok (tree, q) ↔
      ∃ k, kind.Denotes d levels root tree k ∧ k ≤ d.maxJumps ∧ q = ⟨[], k⟩ := by
  have hread := yields_readNode nests kind levels [] root [] 0 (Nat.zero_le _) tree q
  rw [List.append_nil, ← hroot] at hread
  simpa only [Nat.zero_add] using hread

end Kind

namespace Schema

/-- The trees that a text denotes: it is a single document, and its root stands for the tree without
more aliases being followed than may be. -/
def DenotesTree (s : Schema) (text : String) (tree : Json) : Prop :=
  (Document.ofText text).isWhole = true ∧
    ∃ root k, (Document.ofText text).steps = Node.steps root ∧
      s.kind.Denotes (Document.ofText text) maxLevels root tree k ∧
        k ≤ (Document.ofText text).maxJumps

/-- **The tree of a text is the tree that its document denotes.** -/
theorem treeOfYaml_eq_ok {s : Schema} {text : String} {tree : Json} :
    s.treeOfYaml text = .ok tree ↔ s.DenotesTree text tree := by
  rw [treeOfYaml, bind_eq_ok]
  constructor
  · rintro ⟨⟨tree', q⟩, hread, h⟩
    by_cases whole : (Document.ofText text).isWhole = true
    · obtain rfl := Except.ok.inj ((if_pos whole).symm.trans h)
      have nests := Document.nests_of_isWhole whole
      obtain ⟨root, hroot⟩ := nests.root
      obtain ⟨k, hdenotes, hk, -⟩ := (Kind.readNode_root nests hroot _ _ _ q).1 hread
      exact ⟨whole, root, k, hroot, hdenotes, hk⟩
    · cases (if_neg whole).symm.trans h
  · rintro ⟨whole, root, k, hroot, hdenotes, hk⟩
    have nests := Document.nests_of_isWhole whole
    exact ⟨(tree, ⟨[], k⟩), (Kind.readNode_root nests hroot _ _ _ _).2 ⟨k, hdenotes, hk, rfl⟩,
      if_pos whole⟩

end Schema

end SszRecord

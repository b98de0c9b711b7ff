/-
The nodes of documents.

A document that goes on to its end is a node: scalars, aliases, and sequences and mappings of nodes,
written down step by step.  The machine that reads events keeps frames around the place where it
is, and each event moves the frames in one of a few ways (`Shift`); that the steps of a document
fill the frames is carried backwards through its events.

* `shift_of_step` : what an event does to the frames;
* `fills_of_shift` : steps that fill the frames behind an event fill those in front of it;
* `Document.nests_of_isWhole` : the steps of a document are those of a node, and so are the ones
  that an anchor was set at.
-/
import Mathlib
import SszRecord.Yaml.Document

namespace SszRecord.Yaml

/-! ### Nodes -/

/-- A node of a document, with the marks of its steps. -/
inductive Node where
  | reference (anchor : Nat) (mark : Mark)
  | scalar (text : String) (isPlain : Bool) (tag : Option Bytes) (mark : Mark)
  | sequence (tag : Option Bytes) (items : List Node) (mark stop : Mark)
  | mapping (tag : Option Bytes) (members : List (Node × Node)) (mark stop : Mark)
  /-- The root of a text without documents. -/
  | void (mark : Mark)

namespace Node

mutual

/-- The steps of a node. -/
def steps : Node → List Step
  | .reference anchor mark => [⟨.alias anchor, mark⟩]
  | .scalar text isPlain tag mark => [⟨.scalar text isPlain tag, mark⟩]
  | .sequence tag items mark stop =>
    ⟨.sequenceStart tag, mark⟩ :: (itemSteps items ++ [⟨.sequenceEnd, stop⟩])
  | .mapping tag members mark stop =>
    ⟨.mappingStart tag, mark⟩ :: (memberSteps members ++ [⟨.mappingEnd, stop⟩])
  | .void mark => [⟨.void, mark⟩]

/-- The steps of items. -/
def itemSteps : List Node → List Step
  | [] => []
  | item :: rest => steps item ++ itemSteps rest

/-- The steps of members: each key with its value behind it. -/
def memberSteps : List (Node × Node) → List Step
  | [] => []
  | (key, value) :: rest => steps key ++ (steps value ++ memberSteps rest)

end

/-- Nodes that are no aliases. -/
def IsDirect : Node → Prop
  | .reference _ _ => False
  | _ => True

/-- The first step of a node is no end of something, and an alias only if the node is one. -/
theorem exists_steps (n : Node) : ∃ step rest, n.steps = step :: rest ∧
    step.kind ≠ .sequenceEnd ∧ step.kind ≠ .mappingEnd ∧
      (n.IsDirect → ∀ anchor, step.kind ≠ .alias anchor) := by
  cases n with
  | reference => exact ⟨_, _, rfl, by simp, by simp, False.elim⟩
  | scalar => exact ⟨_, _, rfl, by simp, by simp, by simp⟩
  | sequence => exact ⟨_, _, rfl, by simp, by simp, by simp⟩
  | mapping => exact ⟨_, _, rfl, by simp, by simp, by simp⟩
  | void => exact ⟨_, _, rfl, by simp, by simp, by simp⟩

/-- Induction on nodes. -/
@[elab_as_elim, induction_eliminator]
theorem induct {motive : Node → Prop} (reference : ∀ anchor mark, motive (.reference anchor mark))
    (scalar : ∀ text isPlain tag mark, motive (.scalar text isPlain tag mark))
    (sequence : ∀ tag items mark stop, (∀ n ∈ items, motive n) →
      motive (.sequence tag items mark stop))
    (mapping : ∀ tag members mark stop, (∀ m ∈ members, motive m.1 ∧ motive m.2) →
      motive (.mapping tag members mark stop))
    (void : ∀ mark, motive (.void mark)) (n : Node) : motive n := by
  refine @Node.rec motive (fun items => ∀ n ∈ items, motive n)
    (fun members => ∀ m ∈ members, motive m.1 ∧ motive m.2) (fun m => motive m.1 ∧ motive m.2)
    reference scalar sequence mapping void ?_ ?_ ?_ ?_ ?_ n
  · intro n hn
    cases hn
  · intro n items hn hitems
    exact List.forall_mem_cons.2 ⟨hn, hitems⟩
  · intro m hm
    cases hm
  · intro m members hm hmembers
    exact List.forall_mem_cons.2 ⟨hm, hmembers⟩
  · intro _ _ hkey hvalue
    exact ⟨hkey, hvalue⟩

end Node

/-! ### Frames -/

/-- What the steps behind a place belong to. -/
inductive Frame where
  /-- A document that is still to begin, or the end of the stream. -/
  | document
  | documentEnd
  /-- The root of a document. -/
  | root
  /-- The items that are left of a sequence, and its end. -/
  | items
  /-- The members that are left of a mapping, and its end. -/
  | keys
  /-- The value of a key, and what `keys` stands for. -/
  | values
deriving DecidableEq

/-- The frames that are left of a frame behind a node in it. -/
def Frame.behind : Frame → Option (List Frame)
  | .root => some []
  | .items => some [.items]
  | .keys => some [.values]
  | .values => some [.keys]
  | .document => none
  | .documentEnd => none

/-- The frames at a place. -/
def Expecting.frames : Expecting → List Frame
  | .firstDocument => [.document]
  | .document => [.document]
  | .content => [.root]
  | .documentEnd => [.documentEnd]
  | .blockNode => [.root]
  | .blockItem => [.items]
  | .plainItem => [.items]
  | .blockKey => [.keys]
  | .blockValue => [.values]
  | .sequenceItem _ => [.items]
  | .pairKey => [.keys, .items]
  | .pairValue => [.values, .items]
  | .pairEnd => [.keys, .items]
  | .mappingKey _ => [.keys]
  | .mappingValue => [.values]
  | .missingValue => [.values]
  | .nothing => []

/-- The frames that the event of a node opens. -/
inductive Opening : Event.Kind → List Frame → Prop
  | reference (name : String) : Opening (.alias name) []
  | scalar (text : String) (isPlain : Bool) (p : Properties) : Opening (.scalar text isPlain p) []
  | sequence (p : Properties) : Opening (.sequenceStart p) [.items]
  | mapping (p : Properties) : Opening (.mappingStart p) [.keys]

/-- What an event does to the frames. -/
inductive Shift : List Frame → Event.Kind → List Frame → Prop
  | node {f : Frame} {g inner : List Frame} {kind : Event.Kind} (behind : f.behind = some g)
      (opening : Opening kind inner) (fs : List Frame) : Shift (f :: fs) kind (inner ++ (g ++ fs))
  | sequenceEnd (fs : List Frame) : Shift (.items :: fs) .sequenceEnd fs
  | mappingEnd (fs : List Frame) : Shift (.keys :: fs) .mappingEnd fs
  | documentEnd (fs : List Frame) : Shift (.documentEnd :: fs) .documentEnd (.document :: fs)
  | documentStart (fs : List Frame) : Shift (.document :: fs) .documentStart [.root, .documentEnd]
  | streamEnd (fs : List Frame) : Shift (.document :: fs) .streamEnd fs

namespace EventReader

/-- The frames of what is pending. -/
def outer (c : EventReader) : List Frame := c.pending.flatMap Expecting.frames

/-- The frames around the place where a machine is. -/
def frames (c : EventReader) : List Frame := c.expecting.frames ++ c.outer

@[simp] theorem outer_withTokens (tokens : List Token) (c : EventReader) :
    (c.withTokens tokens).outer = c.outer := rfl

@[simp] theorem frames_resume (c : EventReader) : c.resume.frames = c.outer := by
  rw [frames, resume, outer, outer]
  cases c.pending <;> rfl

/-! ### Events -/

theorem opening_unwritten {p : Properties} {mark : Mark} {c c' : EventReader} {e : Event}
    (h : readNode.unwritten p mark c = some (e, c')) :
    ∃ inner, Opening e.kind inner ∧ c'.frames = inner ++ c.outer := by
  rw [readNode.unwritten] at h
  split at h
  · cases h
  · cases h
    exact ⟨[], .scalar _ _ _, frames_resume c⟩

/-- The event of a node opens its own frames, and what is pending stays around them. -/
theorem opening_of_readNode {isBlock withItems : Bool} {c c' : EventReader} {e : Event}
    (h : c.readNode isBlock withItems = some (e, c')) :
    ∃ inner, Opening e.kind inner ∧ c'.frames = inner ++ c.outer := by
  unfold readNode at h
  split at h
  · cases h
  · cases h
    exact ⟨[], .reference _, frames_resume _⟩
  · obtain ⟨⟨p, tokens⟩, -, h⟩ := Option.bind_eq_some_iff.1 h
    obtain ⟨token, -, h⟩ := Option.bind_eq_some_iff.1 h
    split at h
    · split at h
      · cases h
        exact ⟨_, .sequence _, rfl⟩
      · exact (opening_unwritten h :)
    · cases h
      exact ⟨[], .scalar _ _ _, frames_resume _⟩
    · cases h
      exact ⟨_, .sequence _, rfl⟩
    · cases h
      exact ⟨_, .mapping _, rfl⟩
    · split at h
      · cases h
        exact ⟨_, .sequence _, rfl⟩
      · exact (opening_unwritten h :)
    · split at h
      · cases h
        exact ⟨_, .mapping _, rfl⟩
      · exact (opening_unwritten h :)
    · exact (opening_unwritten h :)

variable {c c' : EventReader} {e : Event} {f : Frame} {g fs : List Frame} {next : Expecting}

/-- A node at a place. -/
theorem shift_of_readNode (behind : f.behind = some g) {isBlock withItems : Bool}
    (outer : c.outer = g ++ fs) (h : c.readNode isBlock withItems = some (e, c')) :
    Shift (f :: fs) e.kind c'.frames := by
  obtain ⟨inner, opening, hframes⟩ := opening_of_readNode h
  rw [hframes, outer]
  exact .node behind opening fs

theorem shift_of_nodeThen (behind : f.behind = some g) (outer : next.frames ++ c.outer = g ++ fs)
    {isBlock withItems : Bool} (h : c.nodeThen next isBlock withItems = some (e, c')) :
    Shift (f :: fs) e.kind c'.frames :=
  shift_of_readNode (c := { c with pending := next :: c.pending }) behind outer h

/-- An empty node at a place. -/
theorem shift_of_emptyThen (behind : f.behind = some g) (outer : next.frames ++ c.outer = g ++ fs)
    {mark : Mark} (h : c.emptyThen next mark = (e, c')) : Shift (f :: fs) e.kind c'.frames := by
  cases h
  show Shift (f :: fs) _ (next.frames ++ c.outer)
  rw [outer]
  exact .node behind (.scalar _ _ _) fs

theorem shift_of_resume {kind : Event.Kind} (h : Shift (f :: c.outer) kind c.outer) :
    Shift (f :: c.outer) kind c.resume.frames := by
  rwa [frames_resume]

theorem shift_of_readDocument {isFirst : Bool} (h : c.readDocument isFirst = some (e, c')) :
    Shift (.document :: c.outer) e.kind c'.frames := by
  unfold readDocument at h
  split at h
  · cases h
  · cases h
    exact .streamEnd _
  · split at h
    all_goals
      dsimp only at h
      split at h
      · cases h
        exact .documentStart _
      · obtain ⟨⟨handles, tokens⟩, -, h⟩ := Option.bind_eq_some_iff.1 h
        dsimp only at h
        split at h
        · cases h
          exact .documentStart _
        · cases h

theorem shift_of_readContent (h : c.readContent = some (e, c')) :
    Shift (.root :: c.outer) e.kind c'.frames := by
  unfold readContent at h
  split at h
  · cases h
  · split at h
    case h_6 => exact shift_of_readNode rfl rfl h
    -- the root is not written
    all_goals
      cases h
      exact shift_of_resume (.node (f := .root) rfl (.scalar _ _ _) _)

theorem shift_of_readDocumentEnd (h : c.readDocumentEnd = some (e, c')) :
    Shift (.documentEnd :: c.outer) e.kind c'.frames := by
  unfold readDocumentEnd at h
  split at h <;> cases h
  · exact .documentEnd _
  · exact .documentEnd _

theorem shift_of_readBlockItem (h : c.readBlockItem = some (e, c')) :
    Shift (.items :: c.outer) e.kind c'.frames := by
  unfold readBlockItem at h
  split at h
  · obtain ⟨token, -, h⟩ := Option.bind_eq_some_iff.1 h
    split at h
    · exact shift_of_emptyThen rfl rfl (Option.some.inj h)
    · exact shift_of_emptyThen rfl rfl (Option.some.inj h)
    · exact shift_of_nodeThen rfl rfl h
  · cases h
    exact shift_of_resume (.sequenceEnd _)
  · cases h

theorem shift_of_readPlainItem (h : c.readPlainItem = some (e, c')) :
    Shift (.items :: c.outer) e.kind c'.frames := by
  unfold readPlainItem at h
  split at h
  · obtain ⟨token, -, h⟩ := Option.bind_eq_some_iff.1 h
    split at h
    · exact shift_of_emptyThen rfl rfl (Option.some.inj h)
    · exact shift_of_emptyThen rfl rfl (Option.some.inj h)
    · exact shift_of_emptyThen rfl rfl (Option.some.inj h)
    · exact shift_of_emptyThen rfl rfl (Option.some.inj h)
    · exact shift_of_nodeThen rfl rfl h
  · cases h
    exact shift_of_resume (.sequenceEnd _)
  · cases h

theorem shift_of_readBlockMember (behind : f.behind = some g)
    (outer : next.frames ++ c.outer = g ++ fs) {mark : Mark}
    (h : c.readBlockMember next mark = some (e, c')) : Shift (f :: fs) e.kind c'.frames := by
  obtain ⟨token, -, h⟩ := Option.bind_eq_some_iff.1 h
  split at h
  · exact shift_of_emptyThen behind outer (Option.some.inj h)
  · exact shift_of_emptyThen behind outer (Option.some.inj h)
  · exact shift_of_emptyThen behind outer (Option.some.inj h)
  · exact shift_of_nodeThen behind outer h

theorem shift_of_readBlockKey (h : c.readBlockKey = some (e, c')) :
    Shift (.keys :: c.outer) e.kind c'.frames := by
  unfold readBlockKey at h
  split at h
  · exact shift_of_readBlockMember rfl rfl h
  · cases h
    exact shift_of_resume (.mappingEnd _)
  · cases h

theorem shift_of_readBlockValue (h : c.readBlockValue = some (e, c')) :
    Shift (.values :: c.outer) e.kind c'.frames := by
  unfold readBlockValue at h
  split at h
  · exact shift_of_readBlockMember rfl rfl h
  · exact shift_of_emptyThen rfl rfl (Option.some.inj h)
  · cases h

theorem shift_of_readSequenceItem {isFirst : Bool}
    (h : c.readSequenceItem isFirst = some (e, c')) :
    Shift (.items :: c.outer) e.kind c'.frames := by
  unfold readSequenceItem at h
  split at h
  · cases h
    exact shift_of_resume (.sequenceEnd _)
  · obtain ⟨tokens, -, h⟩ := Option.bind_eq_some_iff.1 h
    split at h
    · cases h
      exact .node (f := .items) rfl (.mapping _) c.outer
    · cases h
      exact shift_of_resume (.sequenceEnd _)
    · exact shift_of_nodeThen rfl rfl h

theorem shift_of_readPairKey (h : c.readPairKey = some (e, c')) :
    Shift (.keys :: .items :: c.outer) e.kind c'.frames := by
  unfold readPairKey at h
  split at h
  · cases h
  · split at h
    · exact shift_of_emptyThen rfl rfl (Option.some.inj h)
    · exact shift_of_emptyThen rfl rfl (Option.some.inj h)
    · exact shift_of_emptyThen rfl rfl (Option.some.inj h)
    · exact shift_of_nodeThen rfl rfl h

theorem shift_of_readValueBefore (behind : f.behind = some g)
    (outer : next.frames ++ c.outer = g ++ fs) {close : Token.Kind}
    (h : c.readValueBefore close next = some (e, c')) : Shift (f :: fs) e.kind c'.frames := by
  unfold readValueBefore at h
  split at h
  · cases h
  · rename_i mark rest _
    rw [← outer_withTokens rest] at outer
    obtain ⟨token, -, h⟩ := Option.bind_eq_some_iff.1 h
    dsimp only at h
    split at h
    · exact shift_of_emptyThen behind outer (Option.some.inj h)
    · exact shift_of_nodeThen behind outer h
  · exact shift_of_emptyThen behind outer (Option.some.inj h)

theorem shift_of_readPairEnd (h : c.readPairEnd = some (e, c')) :
    Shift (.keys :: .items :: c.outer) e.kind c'.frames := by
  unfold readPairEnd at h
  split at h
  · cases h
  · cases h
    exact .mappingEnd _

theorem shift_of_readMappingKey {isFirst : Bool} (h : c.readMappingKey isFirst = some (e, c')) :
    Shift (.keys :: c.outer) e.kind c'.frames := by
  unfold readMappingKey at h
  split at h
  · cases h
    exact shift_of_resume (.mappingEnd _)
  · obtain ⟨tokens, -, h⟩ := Option.bind_eq_some_iff.1 h
    split at h
    · obtain ⟨token, -, h⟩ := Option.bind_eq_some_iff.1 h
      split at h
      · exact shift_of_emptyThen rfl rfl (Option.some.inj h)
      · exact shift_of_nodeThen rfl rfl h
    · cases h
      exact shift_of_resume (.mappingEnd _)
    · exact shift_of_nodeThen rfl rfl h

theorem shift_of_readMissingValue (h : c.readMissingValue = some (e, c')) :
    Shift (.values :: c.outer) e.kind c'.frames := by
  unfold readMissingValue at h
  split at h
  · cases h
  · exact shift_of_emptyThen rfl rfl (Option.some.inj h)

/-- **What an event does to the frames.** -/
theorem shift_of_step (h : c.step = some (e, c')) : Shift c.frames e.kind c'.frames := by
  rw [frames]
  unfold step at h
  split at h
  all_goals rename_i hc; rw [hc]
  · exact shift_of_readDocument h
  · exact shift_of_readDocument h
  · exact shift_of_readContent h
  · exact shift_of_readDocumentEnd h
  · exact shift_of_readNode rfl rfl h
  · exact shift_of_readBlockItem h
  · exact shift_of_readPlainItem h
  · exact shift_of_readBlockKey h
  · exact shift_of_readBlockValue h
  · exact shift_of_readSequenceItem h
  · exact shift_of_readPairKey h
  · exact shift_of_readValueBefore rfl rfl h
  · exact shift_of_readPairEnd h
  · exact shift_of_readMappingKey h
  · exact shift_of_readValueBefore rfl rfl h
  · exact shift_of_readMissingValue h
  · cases h

end EventReader

/-! ### Steps -/

open Node

/-- Steps that fill frames up to the end of the document. -/
def Fills : List Frame → List Step → Prop
  | [], _ => False
  | .document :: _, _ => False
  | .documentEnd :: _, steps => steps = []
  | .root :: fs, steps => ∃ node rest, steps = Node.steps node ++ rest ∧ Fills fs rest
  | .items :: fs, steps => ∃ items stop rest,
    steps = itemSteps items ++ ⟨.sequenceEnd, stop⟩ :: rest ∧ Fills fs rest
  | .keys :: fs, steps => ∃ members stop rest,
    steps = memberSteps members ++ ⟨.mappingEnd, stop⟩ :: rest ∧ Fills fs rest
  | .values :: fs, steps => ∃ value members stop rest,
    steps = Node.steps value ++ (memberSteps members ++ ⟨.mappingEnd, stop⟩ :: rest) ∧
      Fills fs rest

theorem fills_node {f : Frame} {g fs : List Frame} (behind : f.behind = some g) {n : Node}
    {rest : List Step} (h : Fills (g ++ fs) rest) : Fills (f :: fs) (n.steps ++ rest) := by
  cases f with
  | root =>
    cases behind
    exact ⟨n, rest, rfl, h⟩
  | items =>
    cases behind
    obtain ⟨items, stop, rest, rfl, h⟩ := h
    exact ⟨n :: items, stop, rest, by rw [itemSteps, List.append_assoc], h⟩
  | keys =>
    cases behind
    obtain ⟨value, members, stop, rest, rfl, h⟩ := h
    exact ⟨(n, value) :: members, stop, rest, by simp only [memberSteps, List.append_assoc], h⟩
  | values =>
    cases behind
    obtain ⟨members, stop, rest, rfl, h⟩ := h
    exact ⟨n, members, stop, rest, rfl, h⟩
  | document => cases behind
  | documentEnd => cases behind

/-- The step of an event of a node. -/
inductive Marks : Event.Kind → Step.Kind → Prop
  | reference (name : String) (anchor : Nat) : Marks (.alias name) (.alias anchor)
  | scalar (text : String) (isPlain : Bool) (p : Properties) :
      Marks (.scalar text isPlain p) (.scalar text isPlain p.tag)
  | sequence (p : Properties) : Marks (.sequenceStart p) (.sequenceStart p.tag)
  | mapping (p : Properties) : Marks (.mappingStart p) (.mappingStart p.tag)

/-- The node that begins with an event. -/
theorem exists_node {kind : Event.Kind} {inner fs : List Frame} (opening : Opening kind inner)
    {kind' : Step.Kind} (marks : Marks kind kind') (mark : Mark) {steps : List Step}
    (h : Fills (inner ++ fs) steps) :
    ∃ n rest, ⟨kind', mark⟩ :: steps = Node.steps n ++ rest ∧ Fills fs rest ∧
      ((∀ anchor, kind' ≠ .alias anchor) → n.IsDirect) := by
  cases opening with
  | reference name =>
    cases marks with
    | reference _ anchor =>
      exact ⟨.reference anchor mark, steps, rfl, h, fun h => h anchor rfl⟩
  | scalar text isPlain p =>
    cases marks
    exact ⟨.scalar text isPlain p.tag mark, steps, rfl, h, fun _ => trivial⟩
  | sequence p =>
    cases marks
    obtain ⟨items, stop, rest, rfl, h⟩ := h
    exact ⟨.sequence p.tag items mark stop, rest, by simp [Node.steps], h, fun _ => trivial⟩
  | mapping p =>
    cases marks
    obtain ⟨members, stop, rest, rfl, h⟩ := h
    exact ⟨.mapping p.tag members mark stop, rest, by simp [Node.steps], h, fun _ => trivial⟩

/-- Steps where an anchor may be set: a node that is no alias begins there. -/
def BeginsNode (steps : List Step) : Prop :=
  ∃ n : Node, n.IsDirect ∧ ∃ rest, steps = n.steps ++ rest

/-- A document, or the end of one from a position on, of which the steps fill frames. -/
structure Nested (frames : List Frame) (position : Nat) (d : Document) : Prop where
  fills : Fills frames d.steps
  anchors : ∀ a ∈ d.anchors, position ≤ a.2 ∧ BeginsNode (d.steps.drop (a.2 - position))

theorem Nested.cons {frames frames' : List Frame} {position : Nat} {d : Document}
    (h : Nested frames (position + 1) d) {kind : Step.Kind} {mark : Mark}
    (fills : Fills frames' (⟨kind, mark⟩ :: d.steps)) :
    Nested frames' position (d.cons kind mark) := by
  refine ⟨fills, fun a ha => ?_⟩
  obtain ⟨hle, hnode⟩ := h.anchors a ha
  have hdrop : a.2 - position = a.2 - (position + 1) + 1 := by omega
  exact ⟨Nat.le_of_succ_le hle, by rwa [Document.cons, hdrop, List.drop_succ_cons]⟩

theorem Nested.setAnchor {frames : List Frame} {position : Nat} {d : Document}
    (h : Nested frames position d) {number : Nat} (node : BeginsNode d.steps) :
    Nested frames position (d.setAnchor number position) := by
  refine ⟨h.fills, fun a ha => ?_⟩
  rw [Document.setAnchor, List.mem_append, List.mem_singleton] at ha
  obtain ha | rfl := ha
  · exact h.anchors a ha
  · exact ⟨Nat.le_refl _, by rwa [Nat.sub_self]⟩

/-- Documents that begin with a step, with an anchor set there or not. -/
inductive Adds (position : Nat) (step : Step) (tail : List (String × Nat) → Document) :
    Document → Prop
  | unset (names : List (String × Nat)) :
      Adds position step tail ((tail names).cons step.kind step.mark)
  | set (names : List (String × Nat)) (number : Nat)
      (direct : ∀ anchor, step.kind ≠ .alias anchor) :
      Adds position step tail (((tail names).cons step.kind step.mark).setAnchor number position)

theorem Adds.of_anchor {position : Nat} {step : Step} {tail : List (String × Nat) → Document}
    {d : Document} (direct : ∀ anchor, step.kind ≠ .alias anchor) (names : List (String × Nat))
    (p : Properties) (unset : p.anchor = none → d = (tail names).cons step.kind step.mark)
    (set : ∀ name, p.anchor = some name → d =
      ((tail (Document.setName name names)).cons step.kind step.mark).setAnchor names.length
        position) : Adds position step tail d := by
  cases h : p.anchor with
  | none => exact unset h ▸ .unset names
  | some name => exact set name h ▸ .set _ _ direct

/-- The event of a node gives its step. -/
theorem adds_ofNodes {kind : Event.Kind} {inner : List Frame} (opening : Opening kind inner)
    {names : List (String × Nat)} {position : Nat} {mark : Mark} {events : List Event}
    (whole : (Document.ofNodes names position (⟨kind, mark⟩ :: events)).isWhole = true) :
    ∃ kind', Marks kind kind' ∧
      Adds position ⟨kind', mark⟩ (fun names => Document.ofNodes names (position + 1) events)
        (Document.ofNodes names position (⟨kind, mark⟩ :: events)) := by
  cases opening with
  | reference name =>
    rw [Document.ofNodes] at whole ⊢
    cases h : names.find? fun n => n.1 = name with
    | none =>
      rw [h] at whole
      cases whole
    | some n => exact ⟨_, .reference name n.2, .unset names⟩
  | scalar text isPlain p =>
    refine ⟨_, .scalar text isPlain p, .of_anchor (by simp) names p (fun h => ?_) fun name h => ?_⟩
    · simp only [Document.ofNodes, h]
    · simp only [Document.ofNodes, h]
      rfl
  | sequence p =>
    refine ⟨_, .sequence p, .of_anchor (by simp) names p (fun h => ?_) fun name h => ?_⟩
    · simp only [Document.ofNodes, h]
    · simp only [Document.ofNodes, h]
      rfl
  | mapping p =>
    refine ⟨_, .mapping p, .of_anchor (by simp) names p (fun h => ?_) fun name h => ?_⟩
    · simp only [Document.ofNodes, h]
    · simp only [Document.ofNodes, h]
      rfl

/-- A node in front of steps that fill the frames behind it. -/
theorem Nested.node {f : Frame} {g inner fs : List Frame} (behind : f.behind = some g)
    {kind : Event.Kind} (opening : Opening kind inner) {kind' : Step.Kind}
    (marks : Marks kind kind') {mark : Mark} {position : Nat} {d : Document}
    (h : Nested (inner ++ (g ++ fs)) (position + 1) d) :
    Nested (f :: fs) position (d.cons kind' mark) ∧
      ((∀ anchor, kind' ≠ .alias anchor) → BeginsNode (d.cons kind' mark).steps) := by
  obtain ⟨n, rest, hsteps, hfills, direct⟩ := exists_node opening marks mark h.fills
  exact ⟨h.cons (hsteps ▸ fills_node behind hfills), fun hkind => ⟨n, direct hkind, rest, hsteps⟩⟩

theorem Adds.nested {f : Frame} {g inner fs : List Frame} (behind : f.behind = some g)
    {kind : Event.Kind} (opening : Opening kind inner) {kind' : Step.Kind}
    (marks : Marks kind kind') {mark : Mark} {position : Nat}
    {tail : List (String × Nat) → Document} {d : Document}
    (adds : Adds position ⟨kind', mark⟩ tail d) (whole : d.isWhole = true)
    (h : ∀ names, (tail names).isWhole = true →
      Nested (inner ++ (g ++ fs)) (position + 1) (tail names)) : Nested (f :: fs) position d := by
  cases adds with
  | unset names => exact ((h names whole).node behind opening marks).1
  | set names number direct =>
    obtain ⟨hnested, begins⟩ := (h names whole).node behind opening marks
    exact hnested.setAnchor (begins direct)

theorem Shift.ne_streamEnd {fs fs' : List Frame} {kind : Event.Kind} (h : Shift fs kind fs')
    (inside : .document ∉ fs) : kind ≠ .streamEnd := by
  rintro rfl
  cases h with
  | node behind opening fs => cases opening
  | streamEnd fs => exact inside (List.mem_cons_self ..)

/-- A place inside a document is left at its end only. -/
theorem Shift.inside {fs fs' : List Frame} {kind : Event.Kind} (h : Shift fs kind fs')
    (inside : .document ∉ fs) (inner : kind ≠ .documentEnd) : .document ∉ fs' := by
  cases h with
  | @node f g inner kind behind opening fs =>
    have hinner : .document ∉ inner := by cases opening <;> simp
    have hg : .document ∉ g := by cases f <;> cases behind <;> simp
    simp only [List.mem_append, not_or]
    exact ⟨hinner, hg, List.not_mem_of_not_mem_cons inside⟩
  | sequenceEnd fs => exact List.not_mem_of_not_mem_cons inside
  | mappingEnd fs => exact List.not_mem_of_not_mem_cons inside
  | documentEnd fs => exact absurd rfl inner
  | documentStart fs => simp
  | streamEnd fs => exact List.not_mem_of_not_mem_cons inside

theorem EventReader.events_step {c c' : EventReader} {e : Event} (h : c.step = some (e, c'))
    (inner : e.kind ≠ .streamEnd) (fuel : Nat) :
    c.events (fuel + 1) = e :: c'.events fuel := by
  rw [events, h]
  exact congrArg (e :: ·) (if_neg inner)

/-- **The documents of events nest**: what is read up to the end of a document fills the frames
around the place where reading begins. -/
theorem nested_ofNodes (fuel : Nat) {c : EventReader} {names : List (String × Nat)}
    {position : Nat} (inside : .document ∉ c.frames)
    (whole : (Document.ofNodes names position (c.events fuel)).isWhole = true) :
    Nested c.frames position (Document.ofNodes names position (c.events fuel)) := by
  induction fuel generalizing c names position with
  | zero => cases whole
  | succ fuel ih =>
    cases hstep : c.step with
    | none =>
      rw [EventReader.events, hstep] at whole
      cases whole
    | some next =>
      obtain ⟨⟨kind, mark⟩, c'⟩ := next
      have hshift := EventReader.shift_of_step hstep
      rw [EventReader.events_step hstep (hshift.ne_streamEnd inside)] at whole ⊢
      -- the frames behind the event are filled by what follows, unless the document ends here
      have htail (inner : kind ≠ .documentEnd) (names : List (String × Nat)) := @ih c' names
        (position + 1) (hshift.inside inside inner)
      generalize c.frames = frames, c'.frames = frames' at hshift htail inside ⊢
      cases hshift with
      | node behind opening fs =>
        obtain ⟨kind', marks, adds⟩ := adds_ofNodes opening whole
        exact adds.nested behind opening marks whole (htail (by rintro rfl; cases opening))
      | sequenceEnd fs =>
        have hnested := htail (by simp) names whole
        exact hnested.cons ⟨[], mark, _, rfl, hnested.fills⟩
      | mappingEnd fs =>
        have hnested := htail (by simp) names whole
        exact hnested.cons ⟨[], mark, _, rfl, hnested.fills⟩
      | documentEnd fs => exact ⟨rfl, List.forall_mem_nil _⟩
      | documentStart fs => exact absurd (List.mem_cons_self ..) inside
      | streamEnd fs => exact absurd (List.mem_cons_self ..) inside

/-! ### Documents -/

namespace Document

/-- Documents of which the steps are those of a node, and anchors lead to nodes that are no
aliases. -/
structure Nests (d : Document) : Prop where
  root : ∃ n : Node, d.steps = n.steps
  anchors : ∀ anchor, d.target anchor ≠ [] → BeginsNode (d.target anchor)

theorem nests_of_nested {d : Document} (h : Nested [.root, .documentEnd] 0 d) : d.Nests := by
  obtain ⟨⟨n, rest, hsteps, rfl⟩, hanchors⟩ := h
  refine ⟨⟨n, by rw [hsteps, List.append_nil]⟩, fun anchor hne => ?_⟩
  rw [target] at hne ⊢
  cases hfind : d.anchors.find? fun a => a.1 = anchor with
  | none =>
    rw [hfind] at hne
    exact absurd rfl hne
  | some a => exact (hanchors a (List.mem_of_find?_eq_some hfind)).2

theorem ofEvents_documentStart (mark : Mark) (events : List Event) :
    ofEvents (⟨.documentStart, mark⟩ :: events) = ofNodes [] 0 events := by
  cases events <;> rfl

/-- **A document that goes on to its end is a node.** -/
theorem nests_of_isWhole {text : String} (whole : (ofText text).isWhole = true) :
    (ofText text).Nests := by
  rw [ofText, Event.ofTokens] at whole ⊢
  cases hstep : EventReader.step ⟨Token.ofText text.toList, .firstDocument, [], []⟩ with
  | none =>
    rw [EventReader.events, hstep] at whole
    cases whole
  | some next =>
    obtain ⟨⟨kind, mark⟩, c⟩ := next
    have hshift : Shift [.document] kind c.frames := EventReader.shift_of_step hstep
    generalize hframes : c.frames = frames at hshift
    cases hshift with
    | node behind => cases behind
    | streamEnd =>
      rw [EventReader.events, hstep]
      exact ⟨⟨.void mark, rfl⟩, fun anchor hne => absurd rfl hne⟩
    | documentStart =>
      rw [EventReader.events_step hstep (by simp), ofEvents_documentStart] at whole ⊢
      have hnested := nested_ofNodes _ (by rw [hframes]; simp) whole
      exact nests_of_nested (hframes ▸ hnested)

end Document

end SszRecord.Yaml

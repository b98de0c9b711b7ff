/-
The events and the steps of flow texts.

The machine that reads events is taken through the tokens of a tree by induction on the tree: a node
is read with whatever is pending around it, and behind the node the machine goes on with just that
(`readsNode`).  The document of the text then has one step for each sign of the tree
(`ofText_flow`).
-/
import Mathlib
import SszRecord.Proofs.Yaml.Tokens

namespace SszRecord.Yaml

/-! ### Events one after another -/

/-- The machine gets from one state to another one by events that do not end the stream. -/
inductive EventReader.Emits : EventReader → List Event → EventReader → Prop
  | nil (c : EventReader) : Emits c [] c
  | cons {c c' c'' : EventReader} {e : Event} {es : List Event} (step : c.step = some (e, c'))
      (inner : e.kind ≠ .streamEnd) (rest : Emits c' es c'') : Emits c (e :: es) c''

open EventReader

theorem EventReader.Emits.trans {c c' c'' : EventReader} {es es' : List Event}
    (h : Emits c es c') (h' : Emits c' es' c'') : Emits c (es ++ es') c'' := by
  induction h with
  | nil => exact h'
  | cons step inner _ ih => exact .cons step inner (ih h')

theorem EventReader.events_of_emits {c c' : EventReader} {es : List Event} (h : Emits c es c')
    (fuel : Nat) : c.events (es.length + fuel) = es ++ c'.events fuel := by
  induction h with
  | nil c => rw [List.length_nil, Nat.zero_add, List.nil_append]
  | @cons c c' c'' e es step inner _ ih =>
    rw [List.length_cons, Nat.add_right_comm, events, step]
    show e :: (if e.kind = .streamEnd then [] else c'.events (es.length + fuel)) = _
    rw [if_neg inner, ih, List.cons_append]

/-! ### Nodes -/

/-- What a node begins with. -/
def Opens (kind : Token.Kind) : Prop :=
  (∃ text isPlain, kind = .scalar text isPlain) ∨ kind = .sequenceOpen ∨ kind = .mappingOpen

theorem tokenKinds_eq_cons {t : Json} (h : Flowing t) :
    ∃ kind kinds, tokenKinds t = kind :: kinds ∧ Opens kind := by
  cases h with
  | string => exact ⟨_, _, rfl, .inl ⟨_, _, rfl⟩⟩
  | array => exact ⟨_, _, rfl, .inr (.inl rfl)⟩
  | object => exact ⟨_, _, rfl, .inr (.inr rfl)⟩

/-- Reading a node gives the events of a tree, and behind it what is pending comes next. -/
def ReadsNode (t : Json) : Prop := ∀ (c : EventReader) (tokens rest : List Token),
  tokens.map Token.kind = tokenKinds t → c.tokens = tokens ++ rest → ∀ isBlock withItems,
    ∃ e c' es, c.readNode isBlock withItems = some (e, c') ∧ e.kind ≠ .streamEnd ∧
      Emits c' es (c.withTokens rest).resume ∧
      (e :: es).map Event.kind = (signs t).map Sign.event

theorem readNode_of_tokens {c : EventReader} {tokens : List Token} (h : c.tokens = tokens)
    (isBlock withItems : Bool) :
    c.readNode isBlock withItems = { c with tokens := tokens }.readNode isBlock withItems := by
  rw [← h]

/-- A comma is passed over in front of every item but the first one. -/
theorem readSequenceItem_node {c : EventReader} {isFirst : Bool} {gap rest : List Token}
    {kind : Token.Kind} {m : Mark} (hgap : gap.map Token.kind = gapBefore [.comma] isFirst)
    (hkind : Opens kind) (tokens : c.tokens = gap ++ ⟨kind, m⟩ :: rest) :
    c.readSequenceItem isFirst =
      (c.withTokens (⟨kind, m⟩ :: rest)).nodeThen (.sequenceItem false) false false := by
  cases isFirst with
  | true =>
    obtain rfl := List.map_eq_nil_iff.1 hgap
    rw [readSequenceItem, tokens]
    obtain ⟨text, isPlain, rfl⟩ | rfl | rfl := hkind <;> rfl
  | false =>
    obtain ⟨⟨_, m'⟩, rfl, ⟨⟩⟩ := List.map_eq_singleton_iff.1 hgap
    rw [readSequenceItem, tokens]
    obtain ⟨text, isPlain, rfl⟩ | rfl | rfl := hkind <;> rfl

theorem readMappingKey_key {c : EventReader} {isFirst : Bool} {gap rest : List Token}
    {key : String} {m m' : Mark} (hgap : gap.map Token.kind = gapBefore [.comma] isFirst)
    (tokens : c.tokens = gap ++ ⟨.key, m⟩ :: ⟨.scalar key true, m'⟩ :: rest) :
    c.readMappingKey isFirst = some (⟨.scalar key true {}, m'⟩,
      { c with tokens := rest, expecting := .mappingValue }) := by
  cases isFirst with
  | true =>
    obtain rfl := List.map_eq_nil_iff.1 hgap
    rw [readMappingKey, tokens]
    rfl
  | false =>
    obtain ⟨⟨_, m'⟩, rfl, ⟨⟩⟩ := List.map_eq_singleton_iff.1 hgap
    rw [readMappingKey, tokens]
    rfl

theorem readValueBefore_node {c : EventReader} {rest : List Token} {kind : Token.Kind}
    {m m' : Mark} (hkind : Opens kind) (tokens : c.tokens = ⟨.value, m'⟩ :: ⟨kind, m⟩ :: rest) :
    c.readValueBefore .mappingClose (.mappingKey false) =
      (c.withTokens (⟨kind, m⟩ :: rest)).nodeThen (.mappingKey false) false false := by
  rw [readValueBefore, tokens]
  obtain ⟨text, isPlain, rfl⟩ | rfl | rfl := hkind <;> rfl

/-- A node is read with something expected behind it, and the machine goes on with just that. -/
theorem emits_node {t : Json} (flowing : Flowing t) (h : ReadsNode t) {c : EventReader}
    {tokens : List Token} (hkinds : tokens.map Token.kind = tokenKinds t) (next : Expecting)
    (rest : List Token)
    (hstep : ∀ kind m tokens', Opens kind → tokens = ⟨kind, m⟩ :: tokens' →
      c.step = (c.withTokens (tokens ++ rest)).nodeThen next false false) :
    ∃ es, Emits c es { c with tokens := rest, expecting := next } ∧
      es.map Event.kind = (signs t).map Sign.event := by
  obtain ⟨kind, kinds, hcons, hopens⟩ := tokenKinds_eq_cons flowing
  obtain ⟨⟨kind, m⟩, tokens', htokens, ⟨⟩, -⟩ := List.map_eq_cons_iff.1 (hkinds.trans hcons)
  obtain ⟨e, c', es, hread, hinner, hemits, hevents⟩ :=
    h { c with tokens := tokens ++ rest, pending := next :: c.pending } tokens rest hkinds rfl false
      false
  exact ⟨e :: es, .cons ((hstep kind m tokens' hopens htokens).trans hread) hinner hemits, hevents⟩

theorem emits_items {items : List Json} (flowing : ∀ item ∈ items, Flowing item)
    (h : ∀ item ∈ items, ReadsNode item) (isFirst : Bool) {c : EventReader}
    (hc : c.expecting = .sequenceItem isFirst) {tokens rest : List Token} {m : Mark}
    (hkinds : tokens.map Token.kind = itemKinds isFirst items)
    (htokens : c.tokens = tokens ++ ⟨.sequenceClose, m⟩ :: rest) :
    ∃ es, Emits c es (c.withTokens rest).resume ∧
      es.map Event.kind = (itemSigns items).map Sign.event ++ [.sequenceEnd] := by
  -- what is pending is left alone: each item goes back to the machine that expects the next one
  induction items generalizing isFirst c tokens with
  | nil =>
    obtain rfl := List.map_eq_nil_iff.1 hkinds
    have hstep : c.step = some (⟨.sequenceEnd, m⟩, (c.withTokens rest).resume) := by
      rw [step, hc]
      show c.readSequenceItem isFirst = _
      rw [readSequenceItem, htokens]
      rfl
    exact ⟨[_], .cons hstep (by simp) (.nil _), rfl⟩
  | cons item items ih =>
    obtain ⟨hflowing, hflowings⟩ := List.forall_mem_cons.1 flowing
    obtain ⟨hitem, hitems⟩ := List.forall_mem_cons.1 h
    rw [itemKinds] at hkinds
    obtain ⟨front, tail, rfl, hfront, htail⟩ := List.map_eq_append_iff.1 hkinds
    obtain ⟨gap, node, rfl, hgap, hnode⟩ := List.map_eq_append_iff.1 hfront
    rw [List.append_assoc, List.append_assoc] at htokens
    obtain ⟨es, hemits, hevents⟩ := emits_node hflowing hitem (c := c) hnode
      (.sequenceItem false) (tail ++ ⟨.sequenceClose, m⟩ :: rest)
      fun kind m' node' hopens hcons => by
        rw [step, hc]
        show c.readSequenceItem isFirst = _
        rw [hcons] at htokens ⊢
        exact readSequenceItem_node hgap hopens htokens
    obtain ⟨es', hemits', hevents'⟩ := ih hflowings hitems false
      (c := { c with
        tokens := tail ++ ⟨.sequenceClose, m⟩ :: rest
        expecting := .sequenceItem false }) rfl htail rfl
    refine ⟨es ++ es', hemits.trans hemits', ?_⟩
    rw [List.map_append, hevents, hevents', itemSigns, List.map_append, List.append_assoc]

theorem emits_members {members : List (String × Json)} (flowing : ∀ m ∈ members, Flowing m.2)
    (h : ∀ m ∈ members, ReadsNode m.2) (isFirst : Bool) {c : EventReader}
    (hc : c.expecting = .mappingKey isFirst) {tokens rest : List Token} {m : Mark}
    (hkinds : tokens.map Token.kind = memberKinds isFirst members)
    (htokens : c.tokens = tokens ++ ⟨.mappingClose, m⟩ :: rest) :
    ∃ es, Emits c es (c.withTokens rest).resume ∧
      es.map Event.kind = (memberSigns members).map Sign.event ++ [.mappingEnd] := by
  induction members generalizing isFirst c tokens with
  | nil =>
    obtain rfl := List.map_eq_nil_iff.1 hkinds
    have hstep : c.step = some (⟨.mappingEnd, m⟩, (c.withTokens rest).resume) := by
      rw [step, hc]
      show c.readMappingKey isFirst = _
      rw [readMappingKey, htokens]
      rfl
    exact ⟨[_], .cons hstep (by simp) (.nil _), rfl⟩
  | cons member members ih =>
    obtain ⟨key, value⟩ := member
    obtain ⟨hflowing, hflowings⟩ := List.forall_mem_cons.1 flowing
    obtain ⟨hvalue, hvalues⟩ := List.forall_mem_cons.1 h
    rw [memberKinds] at hkinds
    obtain ⟨front, tail, rfl, hfront, htail⟩ := List.map_eq_append_iff.1 hkinds
    obtain ⟨gap, pair, rfl, hgap, hpair⟩ := List.map_eq_append_iff.1 hfront
    obtain ⟨⟨_, mkey⟩, scalar, rfl, ⟨⟩, hscalar⟩ := List.map_eq_cons_iff.1 hpair
    obtain ⟨⟨_, mtext⟩, colon, rfl, ⟨⟩, hcolon⟩ := List.map_eq_cons_iff.1 hscalar
    obtain ⟨⟨_, mcolon⟩, node, rfl, ⟨⟩, hnode⟩ := List.map_eq_cons_iff.1 hcolon
    have hkey : c.step = some (⟨.scalar key true {}, mtext⟩, { c with
        tokens := ⟨.value, mcolon⟩ :: (node ++ (tail ++ ⟨.mappingClose, m⟩ :: rest))
        expecting := .mappingValue }) := by
      rw [step, hc]
      show c.readMappingKey isFirst = _
      refine readMappingKey_key hgap (m := mkey) ?_
      rw [htokens]
      simp only [List.append_assoc, List.cons_append]
    obtain ⟨es, hemits, hevents⟩ := emits_node hflowing hvalue (c := { c with
        tokens := ⟨.value, mcolon⟩ :: (node ++ (tail ++ ⟨.mappingClose, m⟩ :: rest))
        expecting := .mappingValue }) hnode (.mappingKey false)
      (tail ++ ⟨.mappingClose, m⟩ :: rest) fun kind m' node' hopens hcons => by
        rw [hcons, step]
        exact readValueBefore_node hopens rfl
    obtain ⟨es', hemits', hevents'⟩ := ih hflowings hvalues false
      (c := { c with
        tokens := tail ++ ⟨.mappingClose, m⟩ :: rest
        expecting := .mappingKey false }) rfl htail rfl
    refine ⟨_ :: (es ++ es'), .cons hkey (by simp) (hemits.trans hemits'), ?_⟩
    rw [List.map_cons, List.map_append, hevents, hevents', memberSigns]
    simp only [List.cons_append, List.map_cons, List.map_append, List.append_assoc]
    rfl

/-- **The tokens of a tree give the events of the tree.** -/
theorem readsNode {t : Json} (h : Flowing t) : ReadsNode t := by
  induction h with
  | @string s _ =>
    intro c tokens rest hkinds htokens isBlock withItems
    obtain ⟨⟨_, m⟩, rfl, ⟨⟩⟩ := List.map_eq_singleton_iff.1 hkinds
    refine ⟨⟨.scalar s (isBare s) {}, m⟩, (c.withTokens rest).resume, [], ?_, by simp, .nil _,
      rfl⟩
    rw [readNode_of_tokens htokens]
    rfl
  | @array items flowing ih =>
    intro c tokens rest hkinds htokens isBlock withItems
    obtain ⟨⟨_, m⟩, inner, ⟨_, m'⟩, rfl, ⟨⟩, hitems, ⟨⟩⟩ := exists_of_map_bracket hkinds
    obtain ⟨es, hemits, hevents⟩ := emits_items flowing ih true
      (c := { c with
        tokens := inner ++ ⟨.sequenceClose, m'⟩ :: rest
        expecting := .sequenceItem true }) rfl hitems rfl
    refine ⟨⟨.sequenceStart {}, m⟩, _, es, ?_, by simp, hemits, ?_⟩
    · rw [readNode_of_tokens htokens, List.cons_append, List.append_assoc]
      rfl
    · rw [List.map_cons, hevents, signs, List.map_append]
      rfl
  | @object members _ flowing ih =>
    intro c tokens rest hkinds htokens isBlock withItems
    obtain ⟨⟨_, m⟩, inner, ⟨_, m'⟩, rfl, ⟨⟩, hmembers, ⟨⟩⟩ := exists_of_map_bracket hkinds
    obtain ⟨es, hemits, hevents⟩ := emits_members flowing ih true
      (c := { c with
        tokens := inner ++ ⟨.mappingClose, m'⟩ :: rest
        expecting := .mappingKey true }) rfl hmembers rfl
    refine ⟨⟨.mappingStart {}, m⟩, _, es, ?_, by simp, hemits, ?_⟩
    · rw [readNode_of_tokens htokens, List.cons_append, List.append_assoc]
      rfl
    · rw [List.map_cons, hevents, signs, List.map_append]
      rfl

/-! ### Documents -/

theorem length_itemSigns_le {items : List Json}
    (h : ∀ item ∈ items, (signs item).length ≤ (tokenKinds item).length) (isFirst : Bool) :
    (itemSigns items).length ≤ (itemKinds isFirst items).length := by
  induction items generalizing isFirst with
  | nil => exact Nat.zero_le _
  | cons item items ih =>
    obtain ⟨hitem, hitems⟩ := List.forall_mem_cons.1 h
    have hrest := ih hitems false
    simp only [itemSigns, itemKinds, List.length_append]
    omega

theorem length_memberSigns_le {members : List (String × Json)}
    (h : ∀ m ∈ members, (signs m.2).length ≤ (tokenKinds m.2).length) (isFirst : Bool) :
    (memberSigns members).length ≤ (memberKinds isFirst members).length := by
  induction members generalizing isFirst with
  | nil => exact Nat.zero_le _
  | cons m members ih =>
    obtain ⟨hm, hmembers⟩ := List.forall_mem_cons.1 h
    have hrest := ih hmembers false
    simp only [memberSigns, memberKinds, List.length_append, List.length_cons]
    omega

theorem length_signs_le {t : Json} (h : Flowing t) :
    (signs t).length ≤ (tokenKinds t).length := by
  induction h with
  | string => exact le_rfl
  | array _ ih =>
    have hitems := length_itemSigns_le ih true
    simp only [signs, tokenKinds, List.length_append, List.length_cons]
    omega
  | object _ _ ih =>
    have hmembers := length_memberSigns_le ih true
    simp only [signs, tokenKinds, List.length_append, List.length_cons]
    omega

/-- The events of a text that is one object. -/
theorem events_object {members : List (String × Json)} (h : Flowing (.object members))
    {tokens : List Token}
    (hkinds : tokens.map Token.kind = tokenKinds (.object members) ++ [.streamEnd]) :
    ∃ m es m' m'', Event.ofTokens tokens =
        ⟨.documentStart, m⟩ :: (es ++ [⟨.documentEnd, m'⟩, ⟨.streamEnd, m''⟩]) ∧
      es.map Event.kind = (signs (.object members)).map Sign.event := by
  obtain ⟨node, last, rfl, hnode, hlast⟩ := List.map_eq_append_iff.1 hkinds
  obtain ⟨⟨_, m'⟩, rfl, ⟨⟩⟩ := List.map_eq_singleton_iff.1 hlast
  obtain ⟨e, c, es, hread, hinner, hemits, hevents⟩ := readsNode h
    ⟨node ++ [⟨.streamEnd, m'⟩], .blockNode, [.documentEnd], defaultHandles⟩ node
    [⟨.streamEnd, m'⟩] hnode rfl true false
  have hcount : es.length + 1 ≤ node.length := by
    have hsigns := length_signs_le h
    have hlength := congrArg List.length hevents
    rw [← hnode, List.length_map] at hsigns
    rw [List.length_map, List.length_map, List.length_cons] at hlength
    omega
  obtain ⟨⟨_, m⟩, inner, rfl, ⟨⟩, -⟩ := List.map_eq_cons_iff.1 hnode
  have hroot : Emits ⟨⟨.mappingOpen, m⟩ :: inner ++ [⟨.streamEnd, m'⟩], .blockNode,
      [.documentEnd], defaultHandles⟩ (e :: es)
      ⟨[⟨.streamEnd, m'⟩], .documentEnd, [], defaultHandles⟩ := .cons hread hinner hemits
  have hend : Emits ⟨[⟨.streamEnd, m'⟩], .documentEnd, [], defaultHandles⟩ [⟨.documentEnd, m'⟩]
      ⟨[⟨.streamEnd, m'⟩], .document, [], defaultHandles⟩ := .cons rfl (by simp) (.nil _)
  have hall : Emits ⟨⟨.mappingOpen, m⟩ :: inner ++ [⟨.streamEnd, m'⟩], .firstDocument, [], []⟩
      (⟨.documentStart, m⟩ :: (e :: es ++ [⟨.documentEnd, m'⟩]))
      ⟨[⟨.streamEnd, m'⟩], .document, [], defaultHandles⟩ :=
    .cons rfl (by simp) (hroot.trans hend)
  refine ⟨m, e :: es, m', m', ?_, hevents⟩
  -- three events stand around those of the object, and the fuel is for four events a token
  obtain ⟨fuel, hfuel⟩ : ∃ fuel, 4 * (inner.length + 2) + 8 = es.length + 3 + (fuel + 1) := by
    rw [List.length_cons] at hcount
    exact ⟨4 * (inner.length + 2) + 4 - es.length, by omega⟩
  have hevents' := events_of_emits hall (fuel + 1)
  rw [List.length_cons, List.length_append, List.length_cons, List.length_singleton] at hevents'
  rw [Event.ofTokens, List.length_append, List.length_cons, List.length_singleton, hfuel, hevents']
  simp only [List.cons_append, List.append_assoc]
  rfl

/-- The document of events that stand for signs. -/
theorem ofNodes_signs {gs : List Sign} {es : List Event}
    (h : es.map Event.kind = gs.map Sign.event) (names : List (String × Nat)) (position : Nat)
    (m m' : Mark) : ∃ steps, Document.ofNodes names position
        (es ++ [⟨.documentEnd, m⟩, ⟨.streamEnd, m'⟩]) = { steps := steps, isWhole := true } ∧
      steps.map Step.kind = gs.map Sign.step := by
  induction gs generalizing es position with
  | nil =>
    obtain rfl := List.map_eq_nil_iff.1 h
    exact ⟨[], rfl, rfl⟩
  | cons g gs ih =>
    obtain ⟨⟨kind, mark⟩, es, rfl, hkind, hes⟩ := List.map_eq_cons_iff.1 h
    obtain ⟨steps, hsteps, hkinds⟩ := ih hes (position + 1)
    obtain rfl : kind = g.event := hkind
    refine ⟨⟨g.step, mark⟩ :: steps, ?_, ?_⟩
    · cases g <;> simp only [List.cons_append, Document.ofNodes, Sign.event, hsteps] <;> rfl
    · rw [List.map_cons, List.map_cons, hkinds]

/-- **The document of the text of an object has the steps of the object and nothing else.** -/
theorem ofText_flow {members : List (String × Json)} (h : Flowing (.object members)) :
    ∃ steps, Document.ofText (String.ofList (flow (.object members))) =
        { steps := steps, isWhole := true } ∧
      steps.map Step.kind = (signs (.object members)).map Sign.step := by
  obtain ⟨m, es, m', m'', hevents, hkinds⟩ :=
    events_object h (TokenReader.tokens_flow h)
  obtain ⟨steps, hsteps, hsigns⟩ := ofNodes_signs hkinds [] 0 m' m''
  refine ⟨steps, ?_, hsigns⟩
  rw [Document.ofText, String.toList_ofList, hevents, ← hsteps]
  cases es <;> rfl

end SszRecord.Yaml

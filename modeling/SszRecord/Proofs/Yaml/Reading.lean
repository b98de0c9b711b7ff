/-
Reading YAML texts of records back.

The steps of a tree are read as the tree by the kind that the tree belongs to (`Kind.ReadsAs`), and
the YAML text of a value is the flow text of its tree; both are shown of each value together
(`Kind.isFlow`).  With the document of a flow text this gives `Schema.ofYaml_toYaml`.
-/
import Mathlib
import SszRecord.Proofs.Text.Reading
import SszRecord.Proofs.Yaml.Events
import SszRecord.Yaml.Guided

namespace SszRecord.Yaml

/-- A letter or an underscore, and behind it letters, digits and underscores. -/
def isIdentifier (key : String) : Bool :=
  match key.toList with
  | [] => false
  | c :: cs => (c.isAlpha || c = '_') && cs.all isNameChar

theorem isName_of_isIdentifier {key : String} (h : isIdentifier key = true)
    (length : key.length ≤ 128) : IsName key := by
  rw [isIdentifier] at h
  split at h
  · cases h
  · rename_i c cs hkey
    rw [Bool.and_eq_true, Bool.or_eq_true, List.all_eq_true] at h
    obtain ⟨hc, hcs⟩ := h
    have hfirst : isNameChar c = true := by
      rw [isNameChar, Char.isAlphanum, Bool.or_eq_true, Bool.or_eq_true]
      exact hc.imp_left Or.inl
    refine ⟨hkey ▸ List.cons_ne_nil c cs, ?_, length⟩
    rw [hkey]
    exact List.forall_mem_cons.2 ⟨hfirst, hcs⟩

/-- Reading the steps of a tree gives `a`, whatever stands behind them. -/
def Takes {α : Type} (read : Walk → Except ParseFault (α × Walk)) (t : Json) (a : α) : Prop :=
  ∀ (steps rest : List Step) (jumps : Nat), steps.map Step.kind = (signs t).map Sign.step →
    read ⟨steps ++ rest, jumps⟩ = .ok (a, ⟨rest, jumps⟩)

theorem takes_scalar (d : Document) (path : Path) (s : String) :
    Takes (readScalar d path) (.string s) (.string s) := by
  intro steps rest jumps hsteps
  obtain ⟨⟨_, m⟩, rfl, ⟨⟩⟩ := List.map_eq_singleton_iff.1 hsteps
  rfl

theorem readItems_step (readItem : Nat → Walk → NodeRead) {step : Step}
    (h : step.kind ≠ .sequenceEnd) (steps : List Step) (jumps fuel index : Nat) :
    readItems readItem (fuel + 1) index ⟨step :: steps, jumps⟩ = (do
      let (item, p) ← readItem index ⟨step :: steps, jumps⟩
      let (items, p) ← readItems readItem fuel (index + 1) p
      return (item :: items, p)) := by
  obtain ⟨kind, m⟩ := step
  cases kind with
  | sequenceEnd => exact absurd rfl h
  | _ => rfl

theorem readItems_signs {readItem : Nat → Walk → NodeRead} {trees : List Json}
    (flowing : ∀ t ∈ trees, Flowing t) (h : ∀ t ∈ trees, ∀ i, Takes (readItem i) t t)
    {steps : List Step} (hsteps : steps.map Step.kind = (itemSigns trees).map Sign.step) (m : Mark)
    (rest : List Step) (jumps fuel : Nat) (hfuel : trees.length < fuel) (index : Nat) :
    readItems readItem fuel index ⟨steps ++ ⟨.sequenceEnd, m⟩ :: rest, jumps⟩ =
      .ok (trees, ⟨rest, jumps⟩) := by
  induction trees generalizing steps fuel index with
  | nil =>
    obtain ⟨fuel, rfl⟩ := Nat.exists_eq_succ_of_ne_zero (Nat.ne_zero_of_lt hfuel)
    obtain rfl := List.map_eq_nil_iff.1 hsteps
    rfl
  | cons t trees ih =>
    obtain ⟨fuel, rfl⟩ := Nat.exists_eq_succ_of_ne_zero (Nat.ne_zero_of_lt hfuel)
    obtain ⟨hflowing, hflowings⟩ := List.forall_mem_cons.1 flowing
    obtain ⟨ht, htrees⟩ := List.forall_mem_cons.1 h
    rw [itemSigns, List.map_append] at hsteps
    obtain ⟨node, tail, rfl, hnode, htail⟩ := List.map_eq_append_iff.1 hsteps
    have hitem := ht index node (tail ++ ⟨.sequenceEnd, m⟩ :: rest) jumps hnode
    have hrest := ih hflowings htrees htail fuel (Nat.lt_of_succ_lt_succ hfuel) (index + 1)
    obtain ⟨g, gs, hcons, hg⟩ := signs_eq_cons hflowing
    rw [hcons, List.map_cons] at hnode
    obtain ⟨step, node, rfl, hstep, -⟩ := List.map_eq_cons_iff.1 hnode
    rw [List.append_assoc]
    rw [List.cons_append] at hitem ⊢
    simp only [readItems_step readItem (hstep ▸ hg), hitem, hrest, ok_bind]
    rfl

theorem readMembers_step (d : Document)
    (readValue : String → Segment → Walk → Except ParseFault (Option Json × Walk)) (key : String)
    (isPlain : Bool) (m : Mark) (steps : List Step) (jumps fuel : Nat) :
    readMembers d readValue (fuel + 1) ⟨⟨.scalar key isPlain none, m⟩ :: steps, jumps⟩ =
      (readValue key (.key key) ⟨steps, jumps⟩ >>= fun v =>
        readMembers d readValue fuel v.2 >>= fun ms =>
          .ok ((v.1.map (key, ·)).toList ++ ms.1, ms.2)) := rfl

theorem readMembers_signs {d : Document}
    (readValue : String → Segment → Walk → Except ParseFault (Option Json × Walk))
    {members : List (String × Json)}
    (h : ∀ m ∈ members, ∀ segment, Takes (readValue m.1 segment) m.2 (some m.2))
    {steps : List Step} (hsteps : steps.map Step.kind = (memberSigns members).map Sign.step)
    (m : Mark) (rest : List Step) (jumps fuel : Nat) (hfuel : members.length < fuel) :
    readMembers d readValue fuel ⟨steps ++ ⟨.mappingEnd, m⟩ :: rest, jumps⟩ =
      .ok (members, ⟨rest, jumps⟩) := by
  induction members generalizing steps fuel with
  | nil =>
    obtain ⟨fuel, rfl⟩ := Nat.exists_eq_succ_of_ne_zero (Nat.ne_zero_of_lt hfuel)
    obtain rfl := List.map_eq_nil_iff.1 hsteps
    rfl
  | cons member members ih =>
    obtain ⟨fuel, rfl⟩ := Nat.exists_eq_succ_of_ne_zero (Nat.ne_zero_of_lt hfuel)
    obtain ⟨key, value⟩ := member
    obtain ⟨hvalue, hmembers⟩ := List.forall_mem_cons.1 h
    rw [memberSigns, List.map_append, List.map_cons] at hsteps
    obtain ⟨pair, tail, rfl, hpair, htail⟩ := List.map_eq_append_iff.1 hsteps
    obtain ⟨⟨_, m'⟩, node, rfl, ⟨⟩, hnode⟩ := List.map_eq_cons_iff.1 hpair
    have hread := hvalue (.key key) node (tail ++ ⟨.mappingEnd, m⟩ :: rest) jumps hnode
    have hrest := ih hmembers htail fuel (Nat.lt_of_succ_lt_succ hfuel)
    rw [List.append_assoc, List.cons_append]
    refine (readMembers_step d readValue key true m' _ jumps fuel).trans ?_
    simp only [hread, hrest, ok_bind]
    rfl

/-! ### Sequences and mappings -/

theorem length_le_itemSigns {items : List Json} (flowing : ∀ item ∈ items, Flowing item) :
    items.length ≤ (itemSigns items).length := by
  induction items with
  | nil => exact Nat.zero_le _
  | cons item items ih =>
    obtain ⟨hflowing, hflowings⟩ := List.forall_mem_cons.1 flowing
    obtain ⟨g, gs, hcons, -⟩ := signs_eq_cons hflowing
    have hrest := ih hflowings
    rw [itemSigns, hcons, List.length_append, List.length_cons, List.length_cons]
    omega

theorem length_le_memberSigns (members : List (String × Json)) :
    members.length ≤ (memberSigns members).length := by
  induction members with
  | nil => exact Nat.zero_le _
  | cons m members ih =>
    rw [memberSigns, List.length_append, List.length_cons, List.length_cons]
    omega

theorem readSequenceNode_start (d : Document) (path : Path) (depth : Nat)
    (readItem : Nat → Path → Walk → NodeRead) (m : Mark) (steps : List Step) (jumps : Nat) :
    readSequenceNode d path (depth + 1) readItem ⟨⟨.sequenceStart none, m⟩ :: steps, jumps⟩ =
      (readItems (fun i p => readItem depth (.index i :: path) p) (steps.length + 1) 0
        ⟨steps, jumps⟩ >>= fun v => .ok (.array v.1, v.2)) := rfl

theorem readMappingNode_start (d : Document) (name : String) (path : Path) (depth : Nat)
    (readMember : String → Nat → Path → Walk → Except ParseFault (Option Json × Walk)) (m : Mark)
    (steps : List Step) (jumps : Nat) :
    readMappingNode d name path (depth + 1) readMember
        ⟨⟨.mappingStart none, m⟩ :: steps, jumps⟩ =
      (readMembers d (fun key segment p => readMember key depth (segment :: path) p)
        (steps.length + 1) ⟨steps, jumps⟩ >>= fun v =>
          .ok (.object (Json.collect v.1), v.2)) := rfl

theorem takes_sequence (d : Document) (path : Path) {depth : Nat}
    {readItem : Nat → Path → Walk → NodeRead} {trees : List Json}
    (flowing : ∀ t ∈ trees, Flowing t)
    (h : ∀ t ∈ trees, ∀ path, Takes (readItem depth path) t t) :
    Takes (readSequenceNode d path (depth + 1) readItem) (.array trees) (.array trees) := by
  intro steps rest jumps hsteps
  rw [signs, List.map_append, List.map_cons] at hsteps
  obtain ⟨⟨_, m⟩, items, ⟨_, m'⟩, rfl, ⟨⟩, hitems, ⟨⟩⟩ := exists_of_map_bracket hsteps
  have hcount : trees.length ≤ items.length := by
    have hle := length_le_itemSigns flowing
    have hlength := congrArg List.length hitems
    rw [List.length_map, List.length_map] at hlength
    omega
  have hread := readItems_signs flowing (fun t ht i => h t ht (.index i :: path)) hitems m' rest
    jumps ((items ++ ⟨.sequenceEnd, m'⟩ :: rest).length + 1)
    (by rw [List.length_append]; omega) 0
  rw [List.cons_append, List.append_assoc]
  refine (readSequenceNode_start d path depth readItem m _ jumps).trans ?_
  rw [List.singleton_append]
  exact congrArg (· >>= _) hread

theorem takes_mapping (d : Document) (name : String) (path : Path) {depth : Nat}
    {readMember : String → Nat → Path → Walk → Except ParseFault (Option Json × Walk)}
    {members : List (String × Json)} (distinct : (members.map Prod.fst).Nodup)
    (h : ∀ m ∈ members, ∀ path, Takes (readMember m.1 depth path) m.2 (some m.2)) :
    Takes (readMappingNode d name path (depth + 1) readMember) (.object members)
      (.object members) := by
  intro steps rest jumps hsteps
  rw [signs, List.map_append, List.map_cons] at hsteps
  obtain ⟨⟨_, m⟩, pairs, ⟨_, m'⟩, rfl, ⟨⟩, hpairs, ⟨⟩⟩ := exists_of_map_bracket hsteps
  have hcount : members.length ≤ pairs.length := by
    have hle := length_le_memberSigns members
    have hlength := congrArg List.length hpairs
    rw [List.length_map, List.length_map] at hlength
    omega
  have hread := readMembers_signs (d := d)
    (fun key segment p => readMember key depth (segment :: path) p)
    (fun m hm segment => h m hm (segment :: path)) hpairs m' rest
    jumps ((pairs ++ ⟨.mappingEnd, m'⟩ :: rest).length + 1)
    (by rw [List.length_append]; omega)
  rw [List.cons_append, List.append_assoc]
  refine (readMappingNode_start d name path depth readMember m _ jumps).trans ?_
  rw [List.singleton_append]
  refine (congrArg (· >>= _) hread).trans ?_
  rw [ok_bind, Json.collect_of_nodup distinct]

end SszRecord.Yaml

namespace SszRecord.Kind

open Yaml

/-! ### Fields -/

theorem toMembers_eq (fields : List (Field Kind)) (values : List Value) :
    toMembers fields values = mapItems (fun p => do
      let tree ← p.1.kind.toTree p.2
      return (p.1.key, tree)) (fields.zip values) := by
  induction fields generalizing values with
  | nil => rfl
  | cons f fields ih =>
    cases values with
    | nil => rfl
    | cons v values =>
      rw [toMembers, ih, List.zip_cons_cons, mapItems]
      cases f.kind.toTree v <;> rfl

theorem toFlowMembers_eq (fields : List (Field Kind)) (values : List Value) :
    toFlowMembers fields values = mapItems (fun p => do
      let text ← p.1.kind.toFlow p.2
      return p.1.key.toList ++ ':' :: ' ' :: text) (fields.zip values) := by
  induction fields generalizing values with
  | nil => rfl
  | cons f fields ih =>
    cases values with
    | nil => rfl
    | cons v values =>
      rw [toFlowMembers, ih, List.zip_cons_cons, mapItems]
      cases f.kind.toFlow v <;> rfl

/-- The field of a container that has a key. -/
theorem readFieldNode_of_mem (d : Document) {fields : List (Field Kind)} {f : Field Kind}
    (distinct : (fields.map Field.key).Nodup) (hf : f ∈ fields) (depth : Nat) (path : Yaml.Path)
    (p : Walk) : readFieldNode d fields f.key depth path p = (do
      let (tree, p) ← f.kind.readNode d depth path p
      return (some tree, p)) := by
  induction fields with
  | nil => cases hf
  | cons f' fields ih =>
    obtain ⟨hkey, hdistinct⟩ := List.nodup_cons.1 distinct
    rw [readFieldNode]
    obtain rfl | hf := List.mem_cons.1 hf
    · rw [if_pos rfl]
    · have hne : f'.key ≠ f.key := fun h => hkey (h ▸ List.mem_map_of_mem hf)
      rw [if_neg hne, ih hdistinct hf]

/-! ### Texts -/

theorem joined_cons_cons (text next : List Char) (rest : List (List Char)) :
    joined (text :: next :: rest) = text ++ ',' :: ' ' :: joined (next :: rest) := rfl

theorem joined_items (items : List Json) : joined (items.map flow) = flowItems true items := by
  cases items with
  | nil => rfl
  | cons item items =>
    rw [flowItems, List.map_cons]
    induction items generalizing item with
    | nil => exact (List.append_nil _).symm
    | cons next items ih =>
      rw [List.map_cons, joined_cons_cons, ih, flowItems]
      rfl

/-- The text of a member. -/
def flowMember (m : String × Json) : List Char := m.1.toList ++ ':' :: ' ' :: flow m.2

theorem joined_members (members : List (String × Json)) :
    joined (members.map flowMember) = flowMembers true members := by
  cases members with
  | nil => rfl
  | cons m members =>
    rw [flowMembers, List.map_cons]
    induction members generalizing m with
    | nil => exact (List.append_nil _).symm
    | cons next members ih =>
      rw [List.map_cons, joined_cons_cons, ih, flowMembers]
      rfl

/-! ### Values -/

/-- A value is written as the text of its tree, and the steps of the tree are read as the tree. -/
structure IsFlow (k : Kind) (v : Value) (t : Json) : Prop where
  flowing : Flowing t
  written : k.toFlow v = .ok (flow t)
  read : ∀ d depth path, t.levels ≤ depth → Takes (k.readNode d depth path) t t

theorem isBare_toText (b : Bytes) : isBare (Hex.toText b) = false := by
  rw [isBare, Hex.toList_toText]
  rfl

theorem isBare_toDecimal (u : UInt256) : isBare u.toDecimal = true := by
  have hnonempty : u.toDecimal.toList.isEmpty = false := by
    rw [UInt256.toList_toDecimal, List.isEmpty_eq_false_iff]
    exact Nat.toDigits_ne_nil
  have hdigits : u.toDecimal.toList.all Char.isDigit = true :=
    List.all_eq_true.2 fun c hc => UInt256.isDigit_of_mem_toDecimal hc
  rw [isBare, hnonempty, hdigits]
  rfl

theorem flow_toText (b : Bytes) :
    flow (.string (Hex.toText b)) = '\'' :: (Hex.toText b).toList ++ ['\''] := by
  rw [flow, isBare_toText]
  rfl

theorem flow_toDecimal (u : UInt256) : flow (.string u.toDecimal) = u.toDecimal.toList := by
  rw [flow, isBare_toDecimal]
  rfl

theorem takes_items (d : Document) (path : Yaml.Path) {item : Kind} {items : List Value}
    {trees : List Json} (h : List.Forall₂ item.IsFlow items trees) {depth : Nat}
    (levels : (Json.array trees).levels ≤ depth) :
    Takes (readSequenceNode d path depth fun depth path p => item.readNode d depth path p)
      (.array trees) (.array trees) := by
  rw [Json.levels] at levels
  obtain ⟨depth, rfl⟩ := Nat.exists_eq_succ_of_ne_zero (Nat.ne_zero_of_lt levels)
  have hdepth := Json.deepestItem_le.1 (Nat.le_of_succ_le_succ levels)
  have hread := forall_of_forall₂ h fun v t ht => ht.read d depth
  exact takes_sequence d path (forall_of_forall₂ h fun v t ht => ht.flowing) fun t ht path =>
    hread t ht path (hdepth t ht)

/-- The text of items. -/
theorem written_items {item : Kind} {items : List Value} {trees : List Json}
    (h : List.Forall₂ item.IsFlow items trees) :
    (do return '[' :: joined (← mapItems (fun v => item.toFlow v) items) ++ [']']) =
      (Except.ok (flow (.array trees)) : Except CodecError (List Char)) := by
  have hwritten : mapItems (fun v => item.toFlow v) items = .ok (trees.map flow) := by
    rw [mapItems_eq_ok, List.forall₂_map_right_iff]
    exact h.imp fun v t ht => ht.written
  rw [hwritten, ok_bind, joined_items, flow]
  rfl

theorem isFlow_text {s : String} (chars : ∀ c ∈ s.toList, c.isAlphanum = true) {k : Kind}
    {v : Value} (written : k.toFlow v = .ok (flow (.string s)))
    (read : ∀ d depth path, k.readNode d depth path = readScalar d path) :
    k.IsFlow v (.string s) := by
  refine ⟨.string chars, written, fun d depth path _ => ?_⟩
  rw [read]
  exact takes_scalar d path s

theorem isFlow_items {item : Kind} {items : List Value}
    (each : ∀ v ∈ items, ∀ t, item.toTree v = .ok t → item.IsFlow v t) {k : Kind} {v : Value}
    (written : k.toFlow v = do
      return '[' :: joined (← mapItems (fun v => item.toFlow v) items) ++ [']'])
    (read : ∀ d depth path, k.readNode d depth path =
      readSequenceNode d path depth fun depth path p => item.readNode d depth path p)
    {t : Json} (ht : (do return .array (← mapItems (fun v => item.toTree v) items)) =
      (Except.ok t : Except CodecError Json)) : k.IsFlow v t := by
  obtain ⟨trees, htrees, ht⟩ := bind_eq_ok.1 ht
  cases ht
  have hitems := forall₂_imp_of_mem (mapItems_eq_ok.1 htrees) each
  refine ⟨.array (forall_of_forall₂ hitems fun v t ht => ht.flowing),
    written.trans (written_items hitems), fun d depth path levels => ?_⟩
  rw [read]
  exact takes_items d path hitems levels

theorem takes_field (d : Document) {fields : List (Field Kind)} {f : Field Kind}
    (distinct : (fields.map Field.key).Nodup) (hf : f ∈ fields) {depth : Nat} {path : Yaml.Path}
    {t : Json} (h : Takes (f.kind.readNode d depth path) t t) :
    Takes (readFieldNode d fields f.key depth path) t (some t) := by
  intro steps rest jumps hsteps
  rw [readFieldNode_of_mem d distinct hf, h steps rest jumps hsteps]
  rfl

theorem isFlow_container {name : String} {fields : List (Field Kind)} {values : List Value}
    (length : values.length = fields.length) (names : ∀ key ∈ fields.map Field.key, IsName key)
    (distinct : (fields.map Field.key).Nodup)
    (each : ∀ p ∈ fields.zip values, ∀ t, p.1.kind.toTree p.2 = .ok t → p.1.kind.IsFlow p.2 t)
    {t : Json} (ht : (container name fields).toTree (.container values) = .ok t) :
    (container name fields).IsFlow (.container values) t := by
  obtain ⟨members, hmembers, ht⟩ := bind_eq_ok.1 ht
  rw [toMembers_eq, mapItems_eq_ok] at hmembers
  have hfields : List.Forall₂ (fun p m => p.1 ∈ fields ∧ p.1.key = m.1 ∧ p.1.kind.IsFlow p.2 m.2)
      (fields.zip values) members := by
    refine forall₂_imp_of_mem hmembers fun p hp m hm => ?_
    obtain ⟨tree, htree, hm⟩ := bind_eq_ok.1 hm
    cases hm
    exact ⟨(List.of_mem_zip hp).1, rfl, each p hp tree htree⟩
  have hkeys : fields.map Field.key = members.map Prod.fst := by
    rw [← List.map_fst_zip length.ge, List.map_map, ← List.forall₂_eq_eq_eq,
      List.forall₂_map_left_iff, List.forall₂_map_right_iff]
    exact hfields.imp fun p m hm => hm.2.1
  have hdistinct : (members.map Prod.fst).Nodup := hkeys ▸ distinct
  -- keys are distinct, so the members of the tree are those of the text
  rw [Json.collect_of_nodup hdistinct] at ht
  cases ht
  refine ⟨.object (fun m hm => names _ (hkeys ▸ List.mem_map_of_mem hm))
    (forall_of_forall₂ hfields fun p m hm => hm.2.2.flowing), ?_, ?_⟩
  · have hwritten : toFlowMembers fields values = .ok (members.map flowMember) := by
      rw [toFlowMembers_eq, mapItems_eq_ok, List.forall₂_map_right_iff]
      refine hfields.imp fun p m hm => ?_
      rw [hm.2.2.written, ok_bind, hm.2.1]
      rfl
    rw [toFlow, hwritten, ok_bind, joined_members, flow]
    rfl
  · intro d depth path levels
    rw [Json.levels] at levels
    obtain ⟨depth, rfl⟩ := Nat.exists_eq_succ_of_ne_zero (Nat.ne_zero_of_lt levels)
    have hdepth := Json.deepestMember_le.1 (Nat.le_of_succ_le_succ levels)
    have hread : ∀ m ∈ members, m.2.levels ≤ depth → ∀ path,
        Takes (readFieldNode d fields m.1 depth path) m.2 (some m.2) := by
      refine forall_of_forall₂ hfields fun p m hm hlevels path => ?_
      obtain ⟨hf, hkey, hm⟩ := hm
      rw [← hkey]
      exact takes_field d distinct hf (hm.read d depth path hlevels)
    exact takes_mapping d name path hdistinct fun m hm => hread m hm (hdepth m hm)

/-- **A value is written as its tree, and the steps of the tree are read as the tree.** -/
theorem isFlow {k : Kind} {v : Value} (h : k.Fits v)
    (names : ∀ k' ∈ k.within, ∀ key ∈ k'.keys, IsName key)
    (distinct : ∀ k' ∈ k.within, k'.keys.Nodup) {t : Json} (ht : k.toTree v = .ok t) :
    k.IsFlow v t := by
  induction h generalizing t with
  | @bytes n b =>
    cases ht
    refine isFlow_text (fun c hc => Hex.isAlphanum_of_mem_toText hc) ?_ fun _ _ _ => rfl
    rw [flow_toText]
    rfl
  | @uint w u =>
    cases ht
    refine isFlow_text (fun c hc => ?_) ?_ fun _ _ _ => rfl
    · rw [Char.isAlphanum, UInt256.isDigit_of_mem_toDecimal hc, Bool.or_true]
    · rw [flow_toDecimal]
      rfl
  | @byteList max b =>
    cases ht
    refine isFlow_text (fun c hc => Hex.isAlphanum_of_mem_toText hc) ?_ fun _ _ _ => rfl
    rw [flow_toText]
    rfl
  | @vector item n items _ _ ih =>
    obtain ⟨-, names⟩ := forall_within_vector.1 names
    obtain ⟨-, distinct⟩ := forall_within_vector.1 distinct
    exact isFlow_items (fun v hv t => ih v hv names distinct) rfl (fun _ _ _ => rfl) ht
  | @list item max items _ _ ih =>
    obtain ⟨-, names⟩ := forall_within_list.1 names
    obtain ⟨-, distinct⟩ := forall_within_list.1 distinct
    exact isFlow_items (fun v hv t => ih v hv names distinct) rfl (fun _ _ _ => rfl) ht
  | @container name fields values length _ ih =>
    obtain ⟨hnames, names⟩ := forall_within_container.1 names
    obtain ⟨hdistinct, distinct⟩ := forall_within_container.1 distinct
    refine isFlow_container length hnames hdistinct (fun p hp t ht => ?_) ht
    exact ih p hp (names _ (List.of_mem_zip hp).1) (distinct _ (List.of_mem_zip hp).1) ht

end SszRecord.Kind

namespace SszRecord.Schema

open Yaml

theorem treeOfYaml_flow {s : Schema} {v : Value} {members : List (String × Json)}
    (h : s.kind.IsFlow v (.object members)) (levels : (Json.object members).levels ≤ maxLevels) :
    s.treeOfYaml (String.ofList (flow (.object members))) = .ok (.object members) := by
  obtain ⟨steps, hdocument, hsteps⟩ := ofText_flow h.flowing
  have hnode := h.read { steps := steps, isWhole := true } maxLevels [] levels steps [] 0 hsteps
  rw [List.append_nil] at hnode
  unfold treeOfYaml
  rw [hdocument]
  show (do
    let (tree, _) ← s.kind.readNode { steps := steps, isWhole := true } maxLevels [] ⟨steps, 0⟩
    if true then return tree else throw ParseFault.malformedYaml) = _
  rw [hnode]
  rfl

/-- **The YAML text of a record is a single line, and it is read as the record.** -/
theorem ofYaml_toYaml {s : Schema}
    (names : ∀ k ∈ s.kind.within, ∀ key ∈ k.keys, isIdentifier key = true ∧ key.length ≤ 128)
    (distinct : ∀ k ∈ s.kind.within, k.keys.Nodup) {r : Record} (fits : s.Conforms r)
    (levels : ∀ tree, s.toTree r = .ok tree → tree.levels ≤ 127) :
    ∃ text, s.toYaml r = .ok text ∧ (∀ c ∈ text.toList, isBreak c = false) ∧
      s.ofYaml text = .ok r := by
  obtain ⟨tree, htree, -, hread⟩ := exists_tree distinct fits
  have hlevels : tree.levels ≤ maxLevels := (levels tree htree).trans (Nat.le_succ 127)
  rw [toTree, fits, ok_bind] at htree
  have hflow : s.kind.IsFlow (.container r) tree := by
    refine Kind.isFlow (Kind.fits_container.2 (conforms_iff.1 fits)) (fun k hk key hkey => ?_)
      distinct htree
    obtain ⟨hname, hlength⟩ := names k hk key hkey
    exact isName_of_isIdentifier hname hlength
  refine ⟨String.ofList (flow tree), ?_, fun c hc => ?_, ?_⟩
  · rw [toYaml, fits, ok_bind, hflow.written]
    rfl
  · rw [String.toList_ofList] at hc
    exact (isAllowed_of_isFlowChar (isFlowChar_of_mem_flow hflow.flowing c hc)).2
  · obtain ⟨members, -, hmembers⟩ := bind_eq_ok.1 htree
    cases hmembers
    have hyaml := treeOfYaml_flow hflow hlevels
    unfold ofYaml
    rw [hyaml]
    exact hread

/-- Containers in lists, an integer beyond one word, and bytes and lists of length zero. -/
theorem ofYaml_toYaml_empty :
    let inner : Kind := .container "Inner" [⟨"null", .uint 32, .reject⟩,
      ⟨"_b2", .byteList 8, .empty⟩]
    let s : Schema := ⟨"Note", [⟨"data", .bytes 0, .reject⟩, ⟨"rows", .list inner 4, .empty⟩,
      ⟨"Tail", .list (.uint 8) 3, .empty⟩]⟩
    let r : Record := [.bytes [], .list [.container [.uint ⟨7, 0, 9, 0⟩, .bytes []],
      .container [.uint ⟨0, 0, 0, 0⟩, .bytes [1, 171]]], .list []]
    (∀ k ∈ s.kind.within, ∀ key ∈ k.keys, isIdentifier key = true ∧ key.length ≤ 128) ∧
      (∀ k ∈ s.kind.within, k.keys.Nodup) ∧ s.Conforms r ∧
      (∀ tree, s.toTree r = .ok tree → tree.levels ≤ 127) ∧
      ∃ text, s.toYaml r = .ok text ∧ (∀ c ∈ text.toList, isBreak c = false) ∧
        s.ofYaml text = .ok r := by
  intro inner s r
  have hnames : ∀ k ∈ s.kind.within, ∀ key ∈ k.keys,
      isIdentifier key = true ∧ key.length ≤ 128 := by
    unfold s inner
    decide
  have hdistinct : ∀ k ∈ s.kind.within, k.keys.Nodup := by
    unfold s inner
    decide
  have hfits : s.Conforms r := by
    unfold s r inner
    rfl
  have hlevels : ∀ tree, s.toTree r = .ok tree → tree.levels ≤ 127 := by
    intro tree htree
    cases htree
    decide
  exact ⟨hnames, hdistinct, hfits, hlevels, ofYaml_toYaml hnames hdistinct hfits hlevels⟩

end SszRecord.Schema

/-
Positions of a tree, and what is wrong at them.

A position is a path of indices: of fields where the schema has a container, of items where it has a
sequence.  Paths are ordered as lists are, so that a node comes before what is inside of it and
fields and items come in turn; this is the order in which a schema is read.  Every position is
looked at for itself: `Spot.fault?` says what is wrong with the node that stands there, whatever
stands elsewhere.

* `Spot.exists_innermost` : a position belongs to the container that is entered last on the way to
  it, and there to a field and to items in it;
* `Spot.says_of_fault?` : what is wrong is told of that field and these items.
-/
import Mathlib
import SszRecord.Proofs.Text.Members

namespace SszRecord

/-- What stands at a position of a tree, to a reading of a schema. -/
inductive Spot where
  /-- A container that is entered. -/
  | container (schema : Schema) (node : Json)
  /-- A value that is no container. -/
  | value (place : Place) (kind : Kind) (node : Json)
  /-- A field that is absent although it may not be. -/
  | absent (place : Place)

namespace Spot

def ofNode (place : Place) : Kind → Json → Spot
  | .container name fields, node => .container ⟨name, fields⟩ node
  | kind, node => .value place kind node

/-- A field of a container: what its key names, or what its policy puts there. -/
def ofField (owner : String) (members : List (String × Json)) (f : Field Kind) : Spot :=
  match Json.present? f.key members, f.absent, f.kind.emptyNode? with
  | some node, _, _ => ofNode ⟨owner, f.key, []⟩ f.kind node
  | none, .empty, some node => ofNode ⟨owner, f.key, []⟩ f.kind node
  | none, _, _ => .absent ⟨owner, f.key, []⟩

/-- The fields of a container and the items of a sequence, in the order in which they are read. -/
def children : Spot → List Spot
  | .container s (.object members) => s.fields.map (ofField s.name members)
  | .value place (.vector item _) (.array nodes) =>
    nodes.zipIdx.map fun m => ofNode (place.item m.2) item m.1
  | .value place (.list item _) (.array nodes) =>
    nodes.zipIdx.map fun m => ofNode (place.item m.2) item m.1
  | _ => []

/-- What stands at the end of a path. -/
def at? : Spot → List Nat → Option Spot
  | p, [] => some p
  | p, i :: path => p.children[i]?.bind fun q => q.at? path

/-- The container that is entered here, with its node. -/
def entered : Spot → List (Schema × Json)
  | .container s node => [(s, node)]
  | _ => []

/-- The containers that are entered along a path, the outermost first. -/
def containers : Spot → List Nat → List (Schema × Json)
  | p, [] => p.entered
  | p, i :: path => p.entered ++ p.children[i]?.elim [] fun q => q.containers path

/-! ### Faults -/

/-- The shape of the node that a value is read from. -/
def nodeShape : Kind → String
  | .vector _ _ => "array"
  | .list _ _ => "array"
  | _ => "string"

def lengthFault? (place : Place) (fits : Bool) : Option String :=
  if fits then none else some ("incorrect length for " ++ place.label)

/-- What is wrong with the text of a byte string. -/
def bytesFault? (place : Place) (fits : Bytes → Bool) (text : String) : Option String :=
  match Hex.ofText text with
  | .ok b => lengthFault? place (fits b)
  | .error fault => some ("invalid value for " ++ place.label ++ ": " ++ fault.message)

/-- What is wrong with the text of an integer. -/
def uintFault? (place : Place) (width : Nat) (text : String) : Option String :=
  match UInt256.ofDecimalWidth width text with
  | .ok _ => none
  | .error fault => some ("invalid value for " ++ place.label ++ ": " ++ fault.message)

/-- What is wrong with the node of a value, the items of a sequence left aside. -/
def valueFault? (place : Place) : Kind → Json → Option String
  | .bytes n, .string text => bytesFault? place (fun b => b.length = n) text
  | .byteList max, .string text => bytesFault? place (fun b => b.length ≤ max) text
  | .uint w, .string text => uintFault? place w text
  | .vector _ n, .array nodes => lengthFault? place (nodes.length = n)
  | .list _ max, .array nodes => lengthFault? place (nodes.length ≤ max)
  | kind, node => some ("invalid JSON: " ++
      s!"cannot unmarshal {node.shape} into field {place.field} of type {nodeShape kind}")

/-- What is wrong at a position, whatever is wrong inside of it or elsewhere. -/
def fault? : Spot → Option String
  | .absent place => some (place.label ++ " missing")
  | .container _ (.object _) => none
  | .container s node => some ("invalid JSON: " ++ s!"cannot unmarshal {node.shape} into {s.name}")
  | .value place kind node => valueFault? place kind node

def faultAt? (p : Spot) (path : List Nat) : Option String := (p.at? path).bind fault?

/-! ### Labels -/

theorem at?_concat (p : Spot) (path : List Nat) (i : Nat) :
    p.at? (path ++ [i]) = (p.at? path).bind fun q => q.children[i]? := by
  induction path generalizing p with
  | nil =>
    rw [List.nil_append, at?, at?, Option.bind_some]
    cases p.children[i]? <;> rfl
  | cons j path ih =>
    rw [List.cons_append, at?, at?, Option.bind_assoc]
    simp only [ih]

theorem containers_concat {p q : Spot} {path : List Nat} {i : Nat}
    (h : p.at? (path ++ [i]) = some q) :
    p.containers (path ++ [i]) = p.containers path ++ q.entered := by
  induction path generalizing p with
  | nil =>
    rw [List.nil_append, at?, Option.bind_eq_some_iff] at h
    obtain ⟨r, hr, hq⟩ := h
    cases hq
    rw [List.nil_append, containers, containers, hr]
    rfl
  | cons j path ih =>
    rw [List.cons_append, at?, Option.bind_eq_some_iff] at h
    obtain ⟨r, hr, hq⟩ := h
    rw [List.cons_append, containers, containers, hr, Option.elim_some, Option.elim_some, ih hq,
      List.append_assoc]

/-- The label of a field and of items in it, one index for every sequence. -/
def labelOf (key : String) (indices : List Nat) : String :=
  labelOfKey key ++ String.join (indices.map fun i => s!"[{i}]")

/-- What stands at the end of a path in a container, if no other container is entered on the way:
the container, or something in one of its fields that lies at the given indices. -/
inductive Stands (s : Schema) (node : Json) : List Nat → Spot → Prop
  | here : Stands s node [] (.container s node)
  | value {i : Nat} {f : Field Kind} {indices : List Nat} (field : s.fields[i]? = some f)
      (kind : Kind) (node' : Json) :
      Stands s node (i :: indices) (.value ⟨s.name, f.key, indices.reverse⟩ kind node')
  | absent {i : Nat} {f : Field Kind} (field : s.fields[i]? = some f) :
      Stands s node [i] (.absent ⟨s.name, f.key, []⟩)

theorem ofNode_cases (place : Place) (k : Kind) (node : Json) :
    (∃ c node', ofNode place k node = .container c node') ∨
      ofNode place k node = .value place k node := by
  cases k with
  | container name fields => exact .inl ⟨⟨name, fields⟩, node, rfl⟩
  | _ => exact .inr rfl

theorem ofField_cases (owner : String) (members : List (String × Json)) (f : Field Kind) :
    (∃ c node, ofField owner members f = .container c node) ∨
      (∃ node, ofField owner members f = .value ⟨owner, f.key, []⟩ f.kind node) ∨
        ofField owner members f = .absent ⟨owner, f.key, []⟩ := by
  have read (node : Json) :
      (∃ c node', ofNode ⟨owner, f.key, []⟩ f.kind node = .container c node') ∨
        (∃ node', ofNode ⟨owner, f.key, []⟩ f.kind node = .value ⟨owner, f.key, []⟩ f.kind node') ∨
          ofNode ⟨owner, f.key, []⟩ f.kind node = .absent ⟨owner, f.key, []⟩ :=
    (ofNode_cases _ f.kind node).imp_right fun h => .inl ⟨node, h⟩
  unfold ofField
  split
  · exact read _
  · exact read _
  · exact .inr (.inr rfl)

theorem children_item {place : Place} {item : Kind} {nodes : List Json} {i : Nat} {q : Spot}
    (h : (nodes.zipIdx.map fun m => ofNode (place.item m.2) item m.1)[i]? = some q) :
    ∃ node, q = ofNode (place.item i) item node := by
  rw [List.getElem?_map, List.getElem?_zipIdx, Option.map_map, Option.map_eq_some_iff] at h
  obtain ⟨node, -, rfl⟩ := h
  exact ⟨node, by simp⟩

/-- What a child is: another container, or something one step further in the same one. -/
theorem stands_child {c : Schema} {node : Json} {rest : List Nat} {p q : Spot} {i : Nat}
    (hp : Stands c node rest p) (h : p.children[i]? = some q) :
    (∃ c' node', q = .container c' node') ∨
      q.entered = [] ∧ Stands c node (rest ++ [i]) q := by
  cases hp with
  | here =>
    cases node with
    | object members =>
      rw [children, List.getElem?_map, Option.map_eq_some_iff] at h
      obtain ⟨f, hf, rfl⟩ := h
      obtain hq | ⟨node', hq⟩ | hq := ofField_cases c.name members f
      · exact .inl hq
      · rw [hq]
        exact .inr ⟨rfl, .value hf f.kind node'⟩
      · rw [hq]
        exact .inr ⟨rfl, .absent hf⟩
    | _ => cases h
  | @value j f indices hf kind node' =>
    -- the items of a sequence have one index more
    have item (k : Kind) (node' : Json) :
        (∃ c' node'', ofNode (Place.item ⟨c.name, f.key, indices.reverse⟩ i) k node' =
            .container c' node'') ∨
          (ofNode (Place.item ⟨c.name, f.key, indices.reverse⟩ i) k node').entered = [] ∧
            Stands c node (j :: indices ++ [i])
              (ofNode (Place.item ⟨c.name, f.key, indices.reverse⟩ i) k node') := by
      obtain hq | hq := ofNode_cases (Place.item ⟨c.name, f.key, indices.reverse⟩ i) k node'
      · exact .inl hq
      · have hstands : Stands c node (j :: (indices ++ [i]))
            (.value ⟨c.name, f.key, (indices ++ [i]).reverse⟩ k node') := .value hf k node'
        rw [List.reverse_concat] at hstands
        rw [hq]
        exact .inr ⟨rfl, hstands⟩
    unfold children at h
    split at h
    · rename_i heq
      cases heq
    · rename_i heq
      cases heq
      obtain ⟨node', rfl⟩ := children_item h
      exact item _ node'
    · rename_i heq
      cases heq
      obtain ⟨node', rfl⟩ := children_item h
      exact item _ node'
    · cases h
  | absent hf => cases h

/-- **Every position belongs to the innermost container on the way to it.** -/
theorem exists_innermost {s : Schema} {tree : Json} {path : List Nat} {q : Spot}
    (h : (container s tree).at? path = some q) :
    ∃ before rest outer c node, path = before ++ rest ∧
      (container s tree).at? before = some (.container c node) ∧
        (container s tree).containers before = outer ++ [(c, node)] ∧
          (container s tree).containers path = outer ++ [(c, node)] ∧ Stands c node rest q := by
  -- From the end of the path: its last step enters a container or stays in the one before.
  induction path using List.reverseRecOn generalizing q with
  | nil =>
    cases h
    exact ⟨[], [], [], s, tree, rfl, rfl, rfl, rfl, .here⟩
  | append_singleton path i ih =>
    have hroute := containers_concat h
    have hat := h
    rw [at?_concat, Option.bind_eq_some_iff] at h
    obtain ⟨p, hp, hq⟩ := h
    obtain ⟨before, rest, outer, c, node, rfl, hbefore, houter, hinner, hstands⟩ := ih hp
    obtain ⟨c', node', rfl⟩ | ⟨hentered, hstands⟩ := stands_child hstands hq
    · rw [hinner] at hroute
      exact ⟨_, [], outer ++ [(c, node)], c', node', (List.append_nil _).symm, hat, hroute, hroute,
        .here⟩
    · rw [hentered, List.append_nil, hinner] at hroute
      exact ⟨before, rest ++ [i], outer, c, node, List.append_assoc .., hbefore, houter, hroute,
        hstands⟩

/-- What can be said of a position in a container: a wrong shape, or something about its label. -/
inductive Says (c : Schema) : List Nat → String → Prop
  | shape (rest : List Nat) (found : String) :
      Says c rest ("invalid JSON: cannot unmarshal " ++ found)
  | missing {i : Nat} {f : Field Kind} (indices : List Nat) (field : c.fields[i]? = some f) :
      Says c (i :: indices) (labelOf f.key indices ++ " missing")
  | length {i : Nat} {f : Field Kind} (indices : List Nat) (field : c.fields[i]? = some f) :
      Says c (i :: indices) ("incorrect length for " ++ labelOf f.key indices)
  | value {i : Nat} {f : Field Kind} (indices : List Nat) (field : c.fields[i]? = some f)
      (reason : String) :
      Says c (i :: indices) ("invalid value for " ++ labelOf f.key indices ++ ": " ++ reason)

theorem label_eq (owner key : String) (indices : List Nat) :
    Place.label ⟨owner, key, indices.reverse⟩ = labelOf key indices := by
  rw [Place.label, Place.brackets, List.reverse_reverse]
  rfl

theorem says_shape (c : Schema) (rest : List Nat) {what found : String}
    (h : what = "cannot unmarshal " ++ found) : Says c rest ("invalid JSON: " ++ what) := by
  rw [h, ← String.append_assoc]
  exact .shape rest found

section Says

variable {c : Schema} {i : Nat} {f : Field Kind} {indices : List Nat}
  (field : c.fields[i]? = some f) {text : String}

include field

theorem says_length {fits : Bool}
    (h : lengthFault? ⟨c.name, f.key, indices.reverse⟩ fits = some text) :
    Says c (i :: indices) text := by
  rw [lengthFault?] at h
  split at h
  · cases h
  · cases h
    rw [label_eq]
    exact .length indices field

theorem says_bytes {fits : Bytes → Bool} {content : String}
    (h : bytesFault? ⟨c.name, f.key, indices.reverse⟩ fits content = some text) :
    Says c (i :: indices) text := by
  rw [bytesFault?] at h
  split at h
  · exact says_length field h
  · cases h
    rw [label_eq]
    exact .value indices field _

theorem says_uint {w : Nat} {content : String}
    (h : uintFault? ⟨c.name, f.key, indices.reverse⟩ w content = some text) :
    Says c (i :: indices) text := by
  rw [uintFault?] at h
  split at h
  · cases h
  · cases h
    rw [label_eq]
    exact .value indices field _

theorem says_value {kind : Kind} {node : Json}
    (h : valueFault? ⟨c.name, f.key, indices.reverse⟩ kind node = some text) :
    Says c (i :: indices) text := by
  unfold valueFault? at h
  split at h
  · exact says_bytes field h
  · exact says_bytes field h
  · exact says_uint field h
  · exact says_length field h
  · exact says_length field h
  · cases h
    exact says_shape c _ (by simp only [String.append_assoc]; rfl)

end Says

theorem says_of_fault? {c : Schema} {node : Json} {rest : List Nat} {q : Spot}
    (hstands : Stands c node rest q) {text : String} (h : q.fault? = some text) :
    Says c rest text := by
  cases hstands with
  | here =>
    cases node with
    | object members => cases h
    | _ =>
      cases h
      exact says_shape c _ (by simp only [String.append_assoc]; rfl)
  | value field kind node' => exact says_value field h
  | @absent i f field =>
    cases h
    have hlabel : Place.label ⟨c.name, f.key, []⟩ = labelOf f.key [] := label_eq c.name f.key []
    rw [hlabel]
    exact .missing [] field

end Spot

end SszRecord

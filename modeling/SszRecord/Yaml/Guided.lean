/-
Reading YAML guided by a schema.

A document is turned into a tree with the help of the kind that belongs to each of its nodes.
Where bytes or an integer belong, a scalar is taken as it is written, so that integers of any width
come through.  Where a sequence or a container belongs, a node of another shape is either refused
at once or made into a tree that the reading of records refuses.

Steps are taken from the front of a document.  An alias is followed to its anchor, and the reading
goes on behind the alias.
-/
import SszRecord.Text.Decoding
import SszRecord.Yaml.Document
import SszRecord.Yaml.Plain

namespace SszRecord.Yaml

/-- The steps that are left and the number of aliases followed. -/
structure Walk where
  rest : List Step
  jumps : Nat := 0

/-- A tree that was read, and what is left behind it. -/
abbrev NodeRead := Except ParseFault (Json × Walk)

/-- Refuses a text without giving reasons. -/
def malformed {α : Type} : Except ParseFault α := .error .malformedYaml

/-- Refuses a node. -/
def misfit {α : Type} (path : Path) (wanted : Wanted) (found : NodeShape) (mark : Mark) :
    Except ParseFault α :=
  .error (.yaml ⟨path, found, wanted, mark⟩)

/-! ### Moving along -/

/-- The steps behind a node, with `level` nodes begun and not ended yet. -/
def behindNode : (level : Nat) → List Step → Option (List Step)
  | _, [] => none
  | level, step :: rest =>
    let level := match step.kind with
      | .sequenceStart _ => level + 1
      | .mappingStart _ => level + 1
      | .sequenceEnd => level - 1
      | .mappingEnd => level - 1
      | _ => level
    if level = 0 then some rest else behindNode level rest

/-- Passes over a node; aliases are not followed. -/
def skipNode (p : Walk) : Except ParseFault Walk :=
  match behindNode 0 p.rest with
  | some rest => .ok { p with rest }
  | none => malformed

/-- Passes over nodes up to the end of a mapping; `fuel` bounds their number. -/
def skipEntries : (fuel : Nat) → Walk → Except ParseFault Walk
  | 0, _ => malformed
  | fuel + 1, p =>
    match p.rest with
    | ⟨.mappingEnd, _⟩ :: rest => .ok { p with rest }
    | _ => do skipEntries fuel (← skipNode p)

/-- How often aliases may be followed, for each step of a document. -/
def jumpsPerStep : Nat := 100

/-- Reads the next node, or the one that an alias there leads to. -/
def atNode (d : Document) (read : Step → Walk → NodeRead) (p : Walk) : NodeRead :=
  match p.rest with
  | [] => malformed
  | ⟨.alias anchor, _⟩ :: rest =>
    if jumpsPerStep * d.steps.length < p.jumps + 1 then malformed
    else
      match d.target anchor with
      | [] => malformed
      | step :: inner => do
        let (tree, q) ← read step ⟨inner, p.jumps + 1⟩
        return (tree, ⟨rest, q.jumps⟩)
  | step :: rest => read step { p with rest }

/-! ### Scalars -/

/-- Reads a scalar as it is written. -/
def readScalar (d : Document) (path : Path) : Walk → NodeRead :=
  atNode d fun step p =>
    match step.kind with
    | .scalar text _ _ => .ok (.string text, p)
    | .sequenceStart _ => misfit path .scalar .sequence step.mark
    | .mappingStart _ => misfit path .scalar .map step.mark
    | _ => malformed

/-- Whether a tag is one of an application. -/
def isLocalTag (tag : Option Bytes) : Bool :=
  match tag with
  | some (33 :: rest) => ByteArray.validateUTF8 ⟨rest.toArray⟩
  | _ => false

/-- The tags of the standard. -/
def standardTag (name : String) : Bytes := Bytes.ofText ("tag:yaml.org,2002:" ++ name)

/-- The tree of an integer where a sequence or a mapping is wanted. -/
def integerTree (path : Path) (wanted : Wanted) (mark : Mark) (text : String) (value : Int) :
    Except ParseFault Json :=
  if isBelowWords value then misfit path wanted (.hugeInteger value) mark else .ok (.string text)

/-- The tree of a plain scalar where a sequence or a mapping is wanted. -/
def plainTree (path : Path) (wanted : Wanted) (mark : Mark) (text : String) :
    Except ParseFault Json :=
  if text.isEmpty || isNullText text then .ok .null
  else
    match boolOfText? text, integer? text with
    | some b, _ => .ok (.bool b)
    | none, some value => integerTree path wanted mark text value
    | none, none => .ok (.string text)

/-- The tree of a scalar where a sequence or a mapping is wanted. -/
def scalarTree (path : Path) (wanted : Wanted) (mark : Mark) (text : String) (isPlain : Bool)
    (tag : Option Bytes) : Except ParseFault Json :=
  if isLocalTag tag then misfit path wanted .tagged mark
  else if tag = some (standardTag "bool") then
    match boolOfText? text with
    | some b => .ok (.bool b)
    | none => malformed
  else if tag = some (standardTag "int") then
    match integer? text with
    | some value => integerTree path wanted mark text value
    | none => malformed
  else if tag = some (standardTag "float") then
    if isFloatText text then .ok (.string text) else malformed
  else if tag = some (standardTag "null") then
    if isNullText text then .ok .null else malformed
  else if isPlain && tag.all (fun t => t.head? = some 33) then plainTree path wanted mark text
  else .ok (.string text)

/-! ### Sequences and mappings -/

/-- Reads items up to the end of a sequence; `fuel` bounds their number. -/
def readItems (readItem : (index : Nat) → Walk → NodeRead) :
    (fuel index : Nat) → Walk → Except ParseFault (List Json × Walk)
  | 0, _, _ => malformed
  | fuel + 1, index, p =>
    match p.rest with
    | ⟨.sequenceEnd, _⟩ :: rest => .ok ([], { p with rest })
    | _ => do
      let (item, p) ← readItem index p
      let (items, p) ← readItems readItem fuel (index + 1) p
      return (item :: items, p)

/-- The last step of the path to the value of a key. -/
def keySegment (p : Walk) : Segment :=
  match p.rest with
  | ⟨.scalar text _ _, _⟩ :: _ => .key text
  | _ => .unknown

/-- Reads a key, which has to be a scalar. -/
def readKey (d : Document) (p : Walk) : Except ParseFault (String × Walk) :=
  match readScalar d [] p with
  | .ok (.string key, p) => .ok (key, p)
  | _ => malformed

/-- Reads members up to the end of a mapping; `fuel` bounds their number.  A value is read or
passed over as its key demands. -/
def readMembers (d : Document)
    (readValue : String → Segment → Walk → Except ParseFault (Option Json × Walk)) :
    (fuel : Nat) → Walk → Except ParseFault (List (String × Json) × Walk)
  | 0, _ => malformed
  | fuel + 1, p =>
    match p.rest with
    | ⟨.mappingEnd, _⟩ :: rest => .ok ([], { p with rest })
    | _ => do
      let segment := keySegment p
      let (key, p) ← readKey d p
      let (value, p) ← readValue key segment p
      let (members, p) ← readMembers d readValue fuel p
      return ((value.map (key, ·)).toList ++ members, p)

/-- Reads a node where a sequence or a mapping is wanted.  The readers of the members are given
the number of levels that are left. -/
def readCollection (d : Document) (wanted : Wanted) (path : Path) (depth : Nat)
    (ofSequence ofMapping : (depth : Nat) → Walk → NodeRead) : Walk → NodeRead :=
  let enter (tag : Option Bytes) (mark : Mark) (read : Nat → Walk → NodeRead) (p : Walk) :
      NodeRead :=
    if isLocalTag tag then misfit path wanted .tagged mark
    else
      match depth with
      | 0 => malformed
      | depth + 1 => read depth p
  atNode d fun step p =>
    match step.kind with
    | .scalar text isPlain tag => do
      return (← scalarTree path wanted step.mark text isPlain tag, p)
    | .sequenceStart tag => enter tag step.mark ofSequence p
    | .mappingStart tag => enter tag step.mark ofMapping p
    | .void => .ok (.null, p)
    | _ => malformed

/-- Reads a node where a sequence is wanted.  The content of a mapping is passed over. -/
def readSequenceNode (d : Document) (path : Path) (depth : Nat)
    (readItem : (depth : Nat) → Path → Walk → NodeRead) : Walk → NodeRead :=
  readCollection d .sequence path depth
    (fun depth p => do
      let (items, p) ←
        readItems (fun i p => readItem depth (.index i :: path) p) (p.rest.length + 1) 0 p
      return (.array items, p))
    (fun _ p => do return (.object [], ← skipEntries (p.rest.length + 1) p))

/-- Reads a node where the mapping of a container is wanted.  The items of a sequence are read as
scalars. -/
def readMappingNode (d : Document) (name : String) (path : Path) (depth : Nat)
    (readMember : String → (depth : Nat) → Path → Walk → Except ParseFault (Option Json × Walk)) :
    Walk → NodeRead :=
  readCollection d (.mapping name) path depth
    (fun _ p => do
      let (items, p) ←
        readItems (fun i p => readScalar d (.index i :: path) p) (p.rest.length + 1) 0 p
      return (.array items, p))
    (fun depth p => do
      let (members, p) ←
        readMembers d (fun key segment p => readMember key depth (segment :: path) p)
          (p.rest.length + 1) p
      return (.object (Json.collect members), p))

end Yaml

namespace Kind

open Yaml

mutual

/-- Reads the node that belongs to a kind; `depth` levels may be opened. -/
def readNode (d : Document) : Kind → (depth : Nat) → Yaml.Path → Yaml.Walk → NodeRead
  | .bytes _, _, path, p => readScalar d path p
  | .uint _, _, path, p => readScalar d path p
  | .byteList _, _, path, p => readScalar d path p
  | .vector item _, depth, path, p =>
    readSequenceNode d path depth (fun depth path p => item.readNode d depth path p) p
  | .list item _, depth, path, p =>
    readSequenceNode d path depth (fun depth path p => item.readNode d depth path p) p
  | .container name fields, depth, path, p =>
    readMappingNode d name path depth
      (fun key depth path p => readFieldNode d fields key depth path p) p

/-- Reads the value of a key of a container, or passes over it if no field has the key. -/
def readFieldNode (d : Document) : List (Field Kind) → (key : String) → (depth : Nat) →
    Yaml.Path → Yaml.Walk → Except ParseFault (Option Json × Yaml.Walk)
  | [], _, _, _, p => do return (none, ← skipNode p)
  | ⟨k, kind, _⟩ :: rest, key, depth, path, p =>
    if k = key then do
      let (tree, p) ← kind.readNode d depth path p
      return (some tree, p)
    else readFieldNode d rest key depth path p

end

end Kind

/-- The number of levels that the nodes of a document may be nested. -/
def Yaml.maxLevels : Nat := 128

namespace Schema

/-- The tree of a YAML text. -/
def treeOfYaml (s : Schema) (text : String) : Except ParseFault Json := do
  let d := Yaml.Document.ofText text
  let (tree, _) ← s.kind.readNode d Yaml.maxLevels [] ⟨d.steps, 0⟩
  if d.isWhole then return tree else throw .malformedYaml

/-- The record of a YAML text. -/
def ofYaml (s : Schema) (text : String) : Except CodecError Record :=
  match s.treeOfYaml text with
  | .ok tree => s.ofTree tree
  | .error fault => .error (.text (.parse fault))

end Schema

end SszRecord

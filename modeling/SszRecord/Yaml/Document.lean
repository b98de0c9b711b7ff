/-
YAML documents.

A document is a list of steps: the events of its nodes, with aliases resolved.  Anchors are
numbered by the number of names in use when they are set, and an alias leads to the last anchor of
its number; so names that are set again may share a number with later ones.

Only the first document of a text is taken up.  What stands behind it only counts as a reason to
refuse the text.
-/
import SszRecord.Yaml.Event.Stream
import SszRecord.Yaml.Token.Stream

namespace SszRecord.Yaml

/-- What a step of a document is. -/
inductive Step.Kind where
  /-- An alias of the anchor of the given number. -/
  | alias (anchor : Nat)
  | scalar (text : String) (isPlain : Bool) (tag : Option Bytes)
  | sequenceStart (tag : Option Bytes)
  | sequenceEnd
  | mappingStart (tag : Option Bytes)
  | mappingEnd
  /-- The root of a text without documents. -/
  | void
deriving DecidableEq, Repr

/-- A step and where what it speaks of begins. -/
structure Step where
  kind : Step.Kind
  mark : Mark
deriving DecidableEq, Repr

/-- The first document of a text. -/
structure Document where
  steps : List Step := []
  /-- Anchors and the positions of their steps, the last one set in front. -/
  anchors : List (Nat × Nat) := []
  /-- The document goes on to its end and nothing follows it. -/
  isWhole : Bool := false
deriving DecidableEq, Repr

namespace Document

/-- The anchors by name, one of them set. -/
def setName (name : String) (names : List (String × Nat)) : List (String × Nat) :=
  (name, names.length) :: names.filter fun n => n.1 ≠ name

/-- The document with a step put in front. -/
def cons (kind : Step.Kind) (mark : Mark) (d : Document) : Document :=
  { d with steps := ⟨kind, mark⟩ :: d.steps }

/-- The document with an anchor of the given number set before all others. -/
def setAnchor (number position : Nat) (d : Document) : Document :=
  { d with anchors := d.anchors ++ [(number, position)] }

/-- The document that begins with the given events; `names` are the anchors set so far and
`position` is the number of steps so far. -/
def ofNodes (names : List (String × Nat)) (position : Nat) : List Event → Document
  | [] => {}
  | ⟨kind, mark⟩ :: rest =>
    let node (p : Properties) (kind : Step.Kind) : Document :=
      match p.anchor with
      | none => (ofNodes names (position + 1) rest).cons kind mark
      | some name =>
        let tail := ofNodes (setName name names) (position + 1) rest
        (tail.setAnchor names.length position).cons kind mark
    match kind with
    | .streamEnd => { isWhole := true }
    | .documentStart => ofNodes names position rest
    | .documentEnd => { isWhole := rest.head?.any fun e => e.kind = .streamEnd }
    | .alias name =>
      match names.find? fun n => n.1 = name with
      | none => {}
      | some (_, number) => (ofNodes names (position + 1) rest).cons (.alias number) mark
    | .scalar text isPlain p => node p (.scalar text isPlain p.tag)
    | .sequenceStart p => node p (.sequenceStart p.tag)
    | .sequenceEnd => (ofNodes names (position + 1) rest).cons .sequenceEnd mark
    | .mappingStart p => node p (.mappingStart p.tag)
    | .mappingEnd => (ofNodes names (position + 1) rest).cons .mappingEnd mark

/-- The first document of a stream; a stream without documents has a root all the same. -/
def ofEvents (events : List Event) : Document :=
  match events with
  | [⟨.streamEnd, mark⟩] => { steps := [⟨.void, mark⟩], isWhole := true }
  | events => ofNodes [] 0 events

/-- The first document of a text. -/
def ofText (text : String) : Document := ofEvents (Event.ofTokens (Token.ofText text.toList))

/-- The steps from the one on that an anchor was set at. -/
def target (d : Document) (anchor : Nat) : List Step :=
  match d.anchors.find? fun a => a.1 = anchor with
  | some (_, position) => d.steps.drop position
  | none => []

end Document

end SszRecord.Yaml

/-
Events of a YAML stream.

The nodes of a document come as scalars, aliases and the beginnings and ends of sequences and
mappings, with tags resolved and empty nodes made explicit.
-/
import SszRecord.Yaml.Token

namespace SszRecord.Yaml

/-- The anchor and the tag of a node. -/
structure Properties where
  anchor : Option String := none
  tag : Option Bytes := none
deriving DecidableEq, Repr

/-- What an event says. -/
inductive Event.Kind where
  | streamEnd
  | documentStart
  | documentEnd
  | alias (name : String)
  | scalar (text : String) (isPlain : Bool) (properties : Properties)
  | sequenceStart (properties : Properties)
  | sequenceEnd
  | mappingStart (properties : Properties)
  | mappingEnd
deriving DecidableEq, Repr

/-- An event and where what it speaks of begins. -/
structure Event where
  kind : Event.Kind
  mark : Mark
deriving DecidableEq, Repr

/-- A node that is not written. -/
def Event.empty (mark : Mark) : Event := ⟨.scalar "" true {}, mark⟩

end SszRecord.Yaml

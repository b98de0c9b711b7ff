/-
Tokens of a YAML text.

Indentation and the place of colons are turned into tokens of their own, so that the tokens of a
text nest like brackets.
-/
import SszRecord.Bytes
import SszRecord.Yaml.Mark

namespace SszRecord.Yaml

/-- A tag as it is written: a handle, which is empty in a tag written out, and what follows it. -/
structure TagText where
  handle : String
  suffix : Bytes
deriving DecidableEq, Repr

/-- What a token is. -/
inductive Token.Kind where
  | version (major minor : Nat)
  | tagHandle (handle : String) (replacement : Bytes)
  | documentStart
  | documentEnd
  | streamEnd
  | blockSequence
  | blockMapping
  | blockEnd
  | sequenceOpen
  | sequenceClose
  | mappingOpen
  | mappingClose
  /-- The dash in front of an item. -/
  | dash
  | comma
  | key
  | value
  | alias (name : String)
  | anchor (name : String)
  | tag (text : TagText)
  | scalar (text : String) (isPlain : Bool)
deriving DecidableEq, Repr

/-- A token and where it begins. -/
structure Token where
  kind : Token.Kind
  mark : Mark
deriving DecidableEq, Repr

end SszRecord.Yaml

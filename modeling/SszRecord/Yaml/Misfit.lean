/-
Nodes of the wrong shape.

A reader that knows what a schema wants at a place of a document reports the node it found there,
the place and the mark of the node.
-/
import SszRecord.Yaml.Mark

namespace SszRecord.Yaml

/-- One step down a document. -/
inductive Segment where
  | index (i : Nat)
  | key (name : String)
  /-- Below a key that is no scalar of its own. -/
  | unknown
deriving DecidableEq, Repr

/-- The way from the root to a node, the last step first. -/
abbrev Path := List Segment

/-- A path as messages show it; the root is a single dot. -/
def Path.text : Path → String
  | [] => "."
  | .index i :: parent => Path.text parent ++ s!"[{i}]"
  | .key name :: parent => below parent ++ name
  | .unknown :: parent => below parent ++ "?"
where
  /-- What stands before a key. -/
  below : Path → String
    | [] => ""
    | parent => Path.text parent ++ "."

/-- What stands at a place where another shape is wanted. -/
inductive NodeShape where
  | sequence
  | map
  | tagged
  | hugeInteger (value : Int)
deriving DecidableEq, Repr

def NodeShape.describe : NodeShape → String
  | .sequence => "sequence"
  | .map => "map"
  | .tagged => "enum"
  | .hugeInteger value => "integer `" ++ toString value ++ "` as i128"

/-- What a schema wants at a place. -/
inductive Wanted where
  | scalar
  | sequence
  | mapping (schema : String)
deriving DecidableEq, Repr

def Wanted.describe : Wanted → String
  | .scalar => "a scalar"
  | .sequence => "a sequence"
  | .mapping schema => "a mapping for " ++ schema

/-- A node of the wrong shape. -/
structure Misfit where
  path : Path
  found : NodeShape
  wanted : Wanted
  mark : Mark
deriving DecidableEq, Repr

def Misfit.message (m : Misfit) : String :=
  (if m.path = [] then "" else m.path.text ++ ": ") ++ "invalid type: " ++ m.found.describe ++
    ", expected " ++ m.wanted.describe ++ m.mark.describe

end SszRecord.Yaml

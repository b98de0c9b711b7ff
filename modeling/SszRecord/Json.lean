/-
JSON trees.

An object is a list of members in the order of their first appearance; a key given again replaces
the value at its first place, so the keys of an object are distinct.
-/
import SszRecord.Binary64

namespace SszRecord

/-- A number: an integer of 64 bits, or a floating point number for every other one. -/
inductive Json.Number where
  | natural (n : Nat)
  /-- The integer `-n`. -/
  | negative (n : Nat)
  | float (isNegative : Bool) (magnitude : Binary64)
deriving DecidableEq, Repr

/-- A JSON value. -/
inductive Json where
  | null
  | bool (b : Bool)
  | number (n : Json.Number)
  | string (s : String)
  | array (items : List Json)
  | object (members : List (String × Json))
deriving Repr

namespace Json

instance : Inhabited Json := ⟨.null⟩

/-- The name of a value's shape. -/
def shape : Json → String
  | .null => "null"
  | .bool _ => "bool"
  | .number _ => "number"
  | .string _ => "string"
  | .array _ => "array"
  | .object _ => "object"

def isNull : Json → Bool
  | .null => true
  | _ => false

/-- The members with one set: in its place if the key is there, else at the end. -/
def setMember (key : String) (value : Json) : List (String × Json) → List (String × Json)
  | [] => [(key, value)]
  | (k, v) :: rest => if k = key then (k, value) :: rest else (k, v) :: setMember key value rest

/-- The members given one after another, each key kept once. -/
def collect (members : List (String × Json)) : List (String × Json) :=
  members.foldl (fun acc (key, value) => setMember key value acc) []

/-- The value of a key. -/
def member? (key : String) : List (String × Json) → Option Json
  | [] => none
  | (k, v) :: rest => if k = key then some v else member? key rest

end Json

/-- The text of a number. -/
def Json.Number.toText : Json.Number → String
  | .natural n => toString n
  | .negative n => "-" ++ toString n
  | .float isNegative magnitude => (if isNegative then "-" else "") ++ magnitude.toText

end SszRecord

/-
Reading records from their text form.

The fields of a schema are looked up one after another and the first fault is reported.  Members
that the schema does not name are ignored, and a member that is null counts as absent.  A field
that is absent is a fault, unless its policy has it read as an empty string or array; a container
is never read from nothing.
-/
import SszRecord.Error
import SszRecord.Json.Reader
import SszRecord.Schema

namespace SszRecord

/-- Refuses a node of another shape than the one that belongs to a place. -/
def TextError.notField {α : Type} (place : Place) (node : Json) (expected : String) :
    Except TextError α :=
  .error (.shape (.notField node.shape place expected))

/-- The text of a string node. -/
def Json.textAt (place : Place) : Json → Except TextError String
  | .string s => .ok s
  | node => TextError.notField place node "string"

/-- The items of an array node. -/
def Json.itemsAt (place : Place) : Json → Except TextError (List Json)
  | .array items => .ok items
  | node => TextError.notField place node "array"

/-- The bytes of a string node of hexadecimal digits. -/
def Json.bytesAt (place : Place) (node : Json) : Except TextError Bytes := do
  match Hex.ofText (← node.textAt place) with
  | .ok b => return b
  | .error fault => throw (.invalidValue place (.hex fault))

/-- The integer of a string node of decimal digits, of at most `width` bytes. -/
def Json.uintAt (place : Place) (width : Nat) (node : Json) : Except TextError UInt256 := do
  match UInt256.ofDecimalWidth width (← node.textAt place) with
  | .ok u => return u
  | .error fault => throw (.invalidValue place (.decimal fault))

/-- Refuses a length that does not fit. -/
def checkLength (place : Place) (fits : Bool) : Except TextError Unit :=
  if fits then .ok () else .error (.incorrectLength place)

/-- Reads nodes one after another, the first one having index `i`. -/
def readNodes {α : Type} (read : Nat → Json → Except TextError α) :
    (i : Nat) → List Json → Except TextError (List α)
  | _, [] => .ok []
  | i, node :: rest => do
    let a ← read i node
    let as ← readNodes read (i + 1) rest
    return a :: as

namespace Kind

/-- What an absent field is read as, where its policy allows that. -/
def emptyNode? : Kind → Option Json
  | .bytes _ => some (.string "")
  | .uint _ => some (.string "")
  | .byteList _ => some (.string "")
  | .vector _ _ => some (.array [])
  | .list _ _ => some (.array [])
  | .container _ _ => none

/-- The node that a field is read from: that of its member, or what stands for an absent one. -/
def nodeOfField (place : Place) (k : Kind) (absent : AbsentPolicy) (node? : Option Json) :
    Except TextError Json :=
  match node?.filter (fun node => !node.isNull) with
  | some node => .ok node
  | none =>
    match absent, k.emptyNode? with
    | .empty, some node => .ok node
    | _, _ => .error (.missing place)

mutual

/-- Reads a value from a node; `place` is where the value stands. -/
def ofTree : Kind → Place → Json → Except TextError Value
  | .bytes n, place, node => do
    let b ← node.bytesAt place
    checkLength place (b.length = n)
    return .bytes b
  | .byteList max, place, node => do
    let b ← node.bytesAt place
    checkLength place (b.length ≤ max)
    return .bytes b
  | .uint w, place, node => do return .uint (← node.uintAt place w)
  | .vector item n, place, node => do
    let nodes ← node.itemsAt place
    checkLength place (nodes.length = n)
    return .vector (← readNodes (fun i node => item.ofTree (place.item i) node) 0 nodes)
  | .list item max, place, node => do
    let nodes ← node.itemsAt place
    checkLength place (nodes.length ≤ max)
    return .list (← readNodes (fun i node => item.ofTree (place.item i) node) 0 nodes)
  | .container name fields, _, .object members =>
    match ofMembers name fields members with
    | .ok values => .ok (.container values)
    | .error e => .error (.nested e)
  | .container name _, _, node => .error (.nested (.shape (.notContainer node.shape name)))

/-- Reads the values of the fields of the container `owner` from the members of an object. -/
def ofMembers (owner : String) :
    List (Field Kind) → (members : List (String × Json)) → Except TextError (List Value)
  | [], _ => .ok []
  | ⟨key, kind, absent⟩ :: rest, members => do
    let place : Place := ⟨owner, key, []⟩
    let node ← nodeOfField place kind absent (Json.member? key members)
    let value ← kind.ofTree place node
    let values ← ofMembers owner rest members
    return value :: values

end

end Kind

namespace Schema

/-- Reads a record from a tree, with the faults of its own container not marked as nested. -/
def readTree (s : Schema) : Json → Except TextError Record
  | .object members => Kind.ofMembers s.name s.fields members
  | node => .error (.shape (.notContainer node.shape s.name))

/-- The record of a tree. -/
def ofTree (s : Schema) (tree : Json) : Except CodecError Record :=
  (s.readTree tree).mapError .text

/-- The record of a JSON text. -/
def ofJson (s : Schema) (text : String) : Except CodecError Record :=
  match Json.ofText text with
  | .ok tree => s.ofTree tree
  | .error report => .error (.text (.parse (.json report)))

end Schema

end SszRecord

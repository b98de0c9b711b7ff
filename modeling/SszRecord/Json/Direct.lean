/-
Reading JSON texts straight into values of known types.

A structure is read from an object with its fields as members, or from an array with its fields in
order.  Members that are no fields are passed over, fields that are missing keep the value they
had, and a field given twice is refused.
-/
import SszRecord.Json.Reader
import SszRecord.Json.Skip

namespace SszRecord.Json

/-- A number that stands where another type is wanted. -/
def Number.found : Number → Found
  | .natural n => .integer n
  | .negative n => .integer (-(n : Int))
  | .float isNegative x => .float ((Number.float isNegative x).toText)

/-- Refuses a value that is not of the type that is wanted.  The value is read first, unless it is
an array or an object. -/
def unexpected {α : Type} (wanted : String) (cs : List Char) : Except Fault α :=
  match cs with
  | [] => faultBefore .expectedValue []
  | c :: rest =>
    if c = '[' then refuse .sequence cs
    else if c = '\x7b' then refuse .map cs
    else do
      let (found, rest) ← describe c rest
      refuse found rest
where
  refuse {α : Type} (found : Found) (cs : List Char) : Except Fault α :=
    faultBefore (.invalidType found wanted) cs
  /-- Reads the value that was found. -/
  describe (c : Char) (rest : List Char) : Except Fault (Found × List Char) :=
    if c = 'n' then do return (.null, ← readWord "ull".toList rest)
    else if c = 't' then do return (.bool true, ← readWord "rue".toList rest)
    else if c = 'f' then do return (.bool false, ← readWord "alse".toList rest)
    else if c = '"' then do
      let (s, rest) ← readString rest
      return (.string s, rest)
    else if c = '-' then do
      let (n, rest) ← readNumber true rest
      return (n.found, rest)
    else if (Text.digit? c).isSome then do
      let (n, rest) ← readNumber false (c :: rest)
      return (n.found, rest)
    else faultBehind .expectedValue (c :: rest)

/-! ### Scalars -/

/-- A number as a natural number of 64 bits. -/
def Number.toWord (wanted : String) (n : Number) (cs : List Char) :
    Except Fault (UInt64 × List Char) :=
  match n with
  | .natural k => .ok (UInt64.ofNat k, cs)
  | .negative _ => faultBefore (.invalidValue n.found wanted) cs
  | .float _ _ => faultBefore (.invalidType n.found wanted) cs

/-- Reads a natural number of 64 bits. -/
def readWord64 (wanted : String) (cs : List Char) : Except Fault (UInt64 × List Char) :=
  match skipBlanks cs with
  | [] => faultBefore .endInValue []
  | '-' :: rest => do
    let (n, rest) ← readNumber true rest
    n.toWord wanted rest
  | c :: rest =>
    if (Text.digit? c).isSome then do
      let (n, rest) ← readNumber false (c :: rest)
      n.toWord wanted rest
    else unexpected wanted (c :: rest)

/-- Reads a boolean. -/
def readBool (wanted : String) (cs : List Char) : Except Fault (Bool × List Char) :=
  match skipBlanks cs with
  | [] => faultBefore .endInValue []
  | 't' :: rest => do return (true, ← readWord "rue".toList rest)
  | 'f' :: rest => do return (false, ← readWord "alse".toList rest)
  | cs => unexpected wanted cs

/-- Reads a string. -/
def readStringOf (wanted : String) (cs : List Char) : Except Fault (String × List Char) :=
  match skipBlanks cs with
  | [] => faultBefore .endInValue []
  | '"' :: rest => readString rest
  | cs => unexpected wanted cs

/-- Reads a value or null. -/
def readOptional {α : Type} (read : List Char → Except Fault (α × List Char)) (cs : List Char) :
    Except Fault (Option α × List Char) :=
  match skipBlanks cs with
  | 'n' :: rest => do return (none, ← readWord "ull".toList rest)
  | cs => do
    let (a, rest) ← read cs
    return (some a, rest)

/-! ### Structures -/

/-- A field of a structure: how its value is read and set. -/
structure FieldReader (σ : Type) where
  name : String
  read : σ → List Char → Except Fault (σ × List Char)

/-- The reader of a field from that of its value. -/
def FieldReader.of {σ α : Type} (name : String) (read : List Char → Except Fault (α × List Char))
    (set : α → σ → σ) : FieldReader σ :=
  ⟨name, fun s cs => do
    let (a, rest) ← read cs
    return (set a s, rest)⟩

/-- Reads the end of an array behind its last field. -/
def readArrayEnd (cs : List Char) : Except Fault (List Char) :=
  match skipBlanks cs with
  | [] => faultBefore .endInList []
  | ']' :: rest => .ok rest
  | ',' :: rest =>
    match skipBlanks rest with
    | ']' :: rest => faultBehind .trailingComma (']' :: rest)
    | rest => faultBehind .trailingCharacters rest
  | rest => faultBehind .trailingCharacters rest

/-- Reads the fields of a structure from an array behind its bracket. -/
def readArrayFields {σ : Type} (isFirst : Bool) (s : σ) :
    List (FieldReader σ) → List Char → Except Fault (σ × List Char)
  | [], cs => do return (s, ← readArrayEnd cs)
  | field :: fields, cs => do
    match ← nextItem isFirst cs with
    | .close rest => return (s, rest)
    | .more rest =>
      let (s, rest) ← field.read s rest
      readArrayFields false s fields rest

/-- The text behind the end of an object that is broken off: blanks and a closing brace are still
taken. -/
def behindBreak (cs : List Char) : List Char :=
  match skipBlanks cs with
  | '\x7d' :: rest => rest
  | rest => rest

/-- Reads the fields of a structure from an object behind its bracket; `seen` are the fields read
so far and `fuel` bounds the number of members. -/
def readObjectFields {σ : Type} (fields : List (FieldReader σ)) :
    (fuel : Nat) → (isFirst : Bool) → (seen : List String) → σ → List Char →
    Except Fault (σ × List Char)
  | 0, _, _, _, _ => faultBefore .endInObject []
  | fuel + 1, isFirst, seen, s, cs => do
    match ← nextKey isFirst cs with
    | .close rest => return (s, rest)
    | .more rest =>
      let (key, rest) ← readString rest
      match fields.find? fun field => field.name = key with
      | some field =>
        if seen.contains key then faultBefore (.duplicateField key) (behindBreak rest)
        else
          let (s, rest) ← field.read s (← readColon rest)
          readObjectFields fields fuel false (key :: seen) s rest
      | none => readObjectFields fields fuel false seen s (← skipValue (← readColon rest))

/-- Reads a structure whose fields have the given values where they are missing. -/
def readStructure {σ : Type} (wanted : String) (fields : List (FieldReader σ)) (initial : σ)
    (cs : List Char) : Except Fault (σ × List Char) :=
  match skipBlanks cs with
  | [] => faultBefore .endInValue []
  | '[' :: rest => readArrayFields true initial fields rest
  | '\x7b' :: rest => readObjectFields fields (rest.length + 1) true [] initial rest
  | cs => unexpected wanted cs

end SszRecord.Json

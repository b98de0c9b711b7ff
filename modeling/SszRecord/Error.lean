/-
Errors.

Every operation fails with a cause.  Structural causes say that the input is not even shaped like
a record; the others name the place that is wrong.  The wording of all of them is here, in the
`message` functions, and is part of what the library promises.
-/
import SszRecord.Hex
import SszRecord.Json.Fault
import SszRecord.Place
import SszRecord.UInt256.Decimal
import SszRecord.Value
import SszRecord.Yaml.Misfit

namespace SszRecord

/-- Why a schema or a settings text is refused. -/
inductive ConfigCause where
  | badWidth (place : Place) (width : Nat)
  | emptyBytes (place : Place)
  | emptyVector (place : Place)
  | noFields (container : String)
  /-- A region too long for any integer, met while decoding. -/
  | undecodableWidth (width : Nat)
  | settings (report : Json.Report)
deriving DecidableEq, Repr

def ConfigCause.message : ConfigCause → String
  | .badWidth place width => place.path ++ s!": unsupported integer width {width}"
  | .emptyBytes place => place.path ++ ": fixed byte array must not be empty"
  | .emptyVector place => place.path ++ ": vector must hold at least one item"
  | .noFields container => container ++ ": container must declare at least one field"
  | .undecodableWidth width => s!"unsupported integer width {width}"
  | .settings report => report.message

/-- How a value fails to fit its kind. -/
inductive Misshape where
  | byteCount (expected found : Nat)
  | tooWide (value : UInt256) (width : Nat)
  | itemCount (expected found : Nat)
  | shape (value field : String)
deriving DecidableEq, Repr

def Misshape.message : Misshape → String
  | .byteCount expected found => s!"expected {expected} bytes, got {found}"
  | .tooWide value width => s!"value {value} does not fit in {width} bytes"
  | .itemCount expected found => s!"vector needs {expected} items, got {found}"
  | .shape value field => s!"{value} value for {field} field"

/-- How a record fails to fit what reads it. -/
inductive Mismatch where
  /-- A value does not fit its kind; the place is given where it is known. -/
  | value (place : Option Place) (cause : Misshape)
  | fieldCount (container : String) (expected found : Nat)
  | packedItem (shape : String) (bits : Nat)
  | missingPayload
  | noField (index : Nat)
  | fieldShape (index : Nat) (shape expected : String)
  | fieldBytes (index found expected : Nat)
  | fieldTooWide (index : Nat)
  | listItem (shape list : String)
deriving DecidableEq, Repr

def Mismatch.message : Mismatch → String
  | .value none cause => cause.message
  | .value (some place) cause => place.path ++ ": " ++ cause.message
  | .fieldCount container expected found =>
    container ++ s!": expected {expected} fields, got {found}"
  | .packedItem shape bits => s!"{shape} item in uint{bits} sequence"
  | .missingPayload => "offset table shorter than schema"
  | .noField index => s!"record has no field {index}"
  | .fieldShape index shape expected => s!"field {index} holds {shape}, expected {expected}"
  | .fieldBytes index found expected =>
    s!"field {index} holds {found} bytes, expected {expected}"
  | .fieldTooWide index => s!"field {index} does not fit in u64"
  | .listItem shape list => s!"{shape} item in {list} list"

def Hex.Fault.message : Hex.Fault → String
  | .oddLength => "Odd number of digits"
  | .badDigit byte position =>
    "Invalid character " ++ Text.quotedChar (Char.ofNat byte.toNat) ++ s!" at position {position}"

/-- Why the text of a scalar is no value of its kind. -/
inductive ScalarFault where
  | hex (fault : Hex.Fault)
  | decimal (fault : UInt256.DecimalFault)
deriving DecidableEq, Repr

def ScalarFault.message : ScalarFault → String
  | .hex fault => fault.message
  | .decimal fault => fault.message

/-- Why a text is refused before its content is looked at. -/
inductive ParseFault where
  | json (report : Json.Report)
  | yaml (misfit : Yaml.Misfit)
  /-- No well-formed document of the kind that is read. -/
  | malformedYaml
deriving DecidableEq, Repr

def ParseFault.message : ParseFault → String
  | .json report => report.message
  | .yaml misfit => misfit.message
  | .malformedYaml => "malformed document"

/-- A node of one shape where the text form of another is wanted. -/
inductive ShapeCause where
  | notContainer (found container : String)
  | notField (found : String) (place : Place) (expected : String)
deriving DecidableEq, Repr

def ShapeCause.message : ShapeCause → String
  | .notContainer found container => s!"cannot unmarshal {found} into {container}"
  | .notField found place expected =>
    s!"cannot unmarshal {found} into field {place.field} of type {expected}"

/-- Why a text does not give a record. -/
inductive TextError where
  | parse (fault : ParseFault)
  | missing (place : Place)
  | shape (cause : ShapeCause)
  /-- A failure inside a container that is itself a field or an item. -/
  | nested (inner : TextError)
  | invalidValue (place : Place) (fault : ScalarFault)
  | incorrectLength (place : Place)
deriving DecidableEq, Repr

def TextError.message : TextError → String
  | .parse fault => fault.message
  | .missing place => place.label ++ " missing"
  | .shape cause => "invalid JSON: " ++ cause.message
  | .nested inner => "invalid JSON: " ++ inner.message
  | .invalidValue place fault => "invalid value for " ++ place.label ++ ": " ++ fault.message
  | .incorrectLength place => "incorrect length for " ++ place.label

/-- Why an operation fails. -/
inductive CodecError where
  | shortBuffer (needed actual : Nat)
  | trailingBytes (expected actual : Nat)
  | badOffset (offset previous length : Nat)
  | firstOffset (expected actual : Nat)
  | itemTooLarge (length max : Nat)
  | listTooLong (count max : Nat)
  | misalignedList (length itemSize : Nat)
  | limitExceeded (count limit : Nat)
  | nestingTooDeep (max : Nat)
  | mismatch (cause : Mismatch)
  | config (cause : ConfigCause)
  | text (error : TextError)
deriving DecidableEq, Repr

def CodecError.message : CodecError → String
  | .shortBuffer needed actual => s!"buffer too short: need at least {needed} bytes, got {actual}"
  | .trailingBytes expected actual =>
    s!"trailing bytes: fixed-size record is {expected} bytes, got {actual}"
  | .badOffset offset previous length =>
    s!"bad offset {offset} (previous {previous}, buffer length {length})"
  | .firstOffset expected actual =>
    s!"invalid variable offset: expected {expected}, got {actual}"
  | .itemTooLarge length max => s!"item too large: {length} bytes exceeds maximum {max}"
  | .listTooLong count max => s!"list too long: {count} items exceeds maximum {max}"
  | .misalignedList length itemSize =>
    s!"list region of {length} bytes is not a multiple of item size {itemSize}"
  | .limitExceeded count limit => s!"list size exceeded: {count} exceeds limit {limit}"
  | .nestingTooDeep max => s!"nesting deeper than {max} levels"
  | .mismatch cause => "record does not match schema: " ++ cause.message
  | .config cause => "invalid configuration: " ++ cause.message
  | .text error => error.message

end SszRecord

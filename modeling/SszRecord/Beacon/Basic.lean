/-
What beacon chain records are made of.
-/
import SszRecord.Typed

namespace SszRecord.Beacon

abbrev Slot := UInt64
abbrev Epoch := UInt64
abbrev ValidatorIndex := UInt64
abbrev Root := Digest
abbrev Version := ByteVector 4
abbrev Signature := ByteVector 96
abbrev Address := ByteVector 20

def versionKind : Kind := .bytes 4
def rootKind : Kind := .bytes 32
def signatureKind : Kind := .bytes 96
def addressKind : Kind := .bytes 20
def wordKind : Kind := .uint 8

/-- The value of a byte vector. -/
def vectorValue {n : Nat} (v : ByteVector n) : Value := .bytes v.bytes

/-- The next field as a byte vector. -/
def readVector (n : Nat) : FieldRead (ByteVector n) := .vector n

/-- The next field as a word. -/
def readWord : FieldRead UInt64 := .word

end SszRecord.Beacon

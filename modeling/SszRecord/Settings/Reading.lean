/-
Reading settings, from JSON texts and from the variables of an environment.

Whatever is not given keeps its default.  A JSON text has to be right in everything it does give;
a variable that cannot be read is ignored.
-/
import SszRecord.Error
import SszRecord.Json.Direct
import SszRecord.Settings

namespace SszRecord.Settings

/-! ### JSON texts -/

/-- The section of limits. -/
def readLimits (s : Settings) (cs : List Char) : Except Json.Fault (Settings × List Char) :=
  Json.readStructure "struct CodecLimits"
    [.of "max_nesting_depth" (Json.readWord64 "usize") fun n s => { s with maxDepth := n }] s cs

/-- The section of text forms. -/
def readTextFormat (s : Settings) (cs : List Char) : Except Json.Fault (Settings × List Char) :=
  Json.readStructure "struct TextFormatConfig"
    [.of "pretty" (Json.readBool "a boolean") fun b s => { s with isPretty := b }] s cs

/-- The section of fixtures. -/
def readFixtures (s : Settings) (cs : List Char) : Except Json.Fault (Settings × List Char) :=
  Json.readStructure "struct FixtureConfig"
    [.of "spec_tests_dir" (Json.readOptional (Json.readStringOf "path string"))
        fun dir s => { s with testsDir := dir },
      .of "preset" (Json.readStringOf "a string") fun preset s => { s with preset := preset }] s cs

/-- Reads settings, section by section. -/
def readSections (cs : List Char) : Except Json.Fault (Settings × List Char) :=
  Json.readStructure "struct CodecConfig"
    [⟨"limits", readLimits⟩, ⟨"text", readTextFormat⟩, ⟨"fixtures", readFixtures⟩] {} cs

/-- Reads a text that holds settings and nothing else. -/
def readJson (cs : List Char) : Except Json.Fault Settings := do
  let (s, rest) ← readSections cs
  Json.readEnd rest
  return s

/-- The settings of a JSON text. -/
def ofJson (text : String) : Except CodecError Settings :=
  match readJson text.toList with
  | .ok s => .ok s
  | .error fault => .error (.config (.settings (fault.report text)))

/-! ### Variables -/

/-- The variables that settings are taken from, those that are set. -/
structure Variables where
  maxDepth : Option String := none
  isPretty : Option String := none
  testsDir : Option String := none
  preset : Option String := none
deriving DecidableEq, Repr

/-- A number of 64 bits: digits, with a plus sign in front or without. -/
def wordOfText? (text : String) : Option UInt64 :=
  let digits := match text.toList with
    | '+' :: rest => rest
    | cs => cs
  if digits.isEmpty then none
  else do
    let n ← digits.foldlM (fun n c => (Text.digit? c).map fun d => n * 10 + d) 0
    if n ≤ Json.maxWord then return UInt64.ofNat n else none

/-- A boolean. -/
def boolOfText? (text : String) : Option Bool :=
  if text = "true" then some true else if text = "false" then some false else none

/-- The settings of an environment. -/
def ofVariables (v : Variables) : Settings :=
  let initial : Settings := {}
  let isGiven (text : String) : Bool := !text.isEmpty
  { maxDepth := (v.maxDepth.bind wordOfText?).getD initial.maxDepth
    isPretty := (v.isPretty.bind boolOfText?).getD initial.isPretty
    testsDir := v.testsDir.filter isGiven
    preset := (v.preset.filter isGiven).getD initial.preset }

end SszRecord.Settings

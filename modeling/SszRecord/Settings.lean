/-
Settings.

They bound the nesting of records, choose the layout of JSON texts and say where test fixtures
lie.  Directories are joined as path names are: a component that begins with a slash replaces what
is in front of it, and nothing is simplified.
-/
import SszRecord.Json.Printer
import SszRecord.Merkle.Root

namespace SszRecord

/-- The settings of a codec. -/
structure Settings where
  /-- The deepest level that is read or hashed. -/
  maxDepth : UInt64 := UInt64.ofNat defaultMaxDepth
  /-- Whether JSON texts are indented. -/
  isPretty : Bool := false
  /-- The directory of the test fixtures. -/
  testsDir : Option String := none
  /-- The part of the fixtures that is used. -/
  preset : String := "mainnet"
deriving DecidableEq, Repr

instance : Inhabited Settings := ⟨{}⟩

/-- A path name with a component behind it. -/
def joinPath (path component : String) : String :=
  if component.toList.head? = some '/' then component
  else if path.toList.getLast?.all (· = '/') then path ++ component
  else path ++ "/" ++ component

namespace Settings

/-- The layout of JSON texts. -/
def layout (s : Settings) : Json.Layout := if s.isPretty then .indented else .compact

/-- The directory of the fixtures of a type in a version of the chain. -/
def fixturesDir (s : Settings) (fork typeName : String) : Option String :=
  s.testsDir.map fun dir =>
    ["tests", s.preset, fork, "ssz_static", typeName, "ssz_random"].foldl joinPath dir

/-- Settings as a tree, in three sections. -/
def toTree (s : Settings) : Json :=
  let dir := s.testsDir.map fun dir => ("spec_tests_dir", Json.string dir)
  .object [
    ("limits", .object [("max_nesting_depth", .number (.natural s.maxDepth.toNat))]),
    ("text", .object [("pretty", .bool s.isPretty)]),
    ("fixtures", .object (dir.toList ++ [("preset", .string s.preset)]))]

/-- Settings as JSON text. -/
def toJson (s : Settings) : String := s.toTree.toText .compact

end Settings

end SszRecord

/-
Marks in a YAML text.

A mark counts characters: those before it in all, the lines before its line, and the characters
before it on its line.
-/

namespace SszRecord.Yaml

/-- A point of a text. -/
structure Mark where
  index : Nat := 0
  line : Nat := 0
  column : Nat := 0
deriving DecidableEq, Repr

instance : Inhabited Mark := ⟨{}⟩

/-- The words that name a mark; the beginning of a text goes without. -/
def Mark.describe (m : Mark) : String :=
  if m.line = 0 ∧ m.column = 0 then "" else s!" at line {m.line + 1} column {m.column + 1}"

end SszRecord.Yaml

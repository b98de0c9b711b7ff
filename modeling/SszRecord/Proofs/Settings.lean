/-
Settings in JSON texts.

Settings are written in three sections, and a directory that is not set is left out.  Reading starts
from the settings that hold where nothing is given, so what has been left out comes back as well.

* `readsAs_sections` : each section is read as what was written of it;
* `ofJson_toText` : settings that have been written are read back, in either layout.
-/
import Mathlib
import SszRecord.Proofs.Json.Direct
import SszRecord.Settings.Reading

namespace SszRecord.Settings

open Json

variable {layout : Layout}

theorem readsAs_limits (s : Settings) (depth : UInt64) :
    ReadsAs layout (readLimits s)
      (.object [("max_nesting_depth", .number (.natural depth.toNat))])
      { s with maxDepth := depth } := by
  refine readsAs_object ?_ ?_ _
  · exact .member rfl (readsAs_field (readsAs_word _ depth) _ _ s) (.done _)
  · exact List.nodup_singleton _

theorem readsAs_textFormat (s : Settings) (isPretty : Bool) :
    ReadsAs layout (readTextFormat s) (.object [("pretty", .bool isPretty)])
      { s with isPretty := isPretty } := by
  refine readsAs_object ?_ ?_ _
  · exact .member rfl (readsAs_field (readsAs_bool _ isPretty) _ _ s) (.done _)
  · exact List.nodup_singleton _

/-- The members of the section of fixtures. -/
def fixtures (testsDir : Option String) (preset : String) : List (String × Json) :=
  (testsDir.map fun dir => ("spec_tests_dir", Json.string dir)).toList ++
    [("preset", .string preset)]

/-- A directory that is left out stays the one that was there. -/
theorem readsAs_fixtures (s : Settings) (testsDir : Option String) (preset : String) :
    ReadsAs layout (readFixtures s) (.object (fixtures testsDir preset))
      { s with testsDir := testsDir.or s.testsDir, preset := preset } := by
  refine readsAs_object ?_ ?_ _
  · cases testsDir with
    | none => exact .member rfl (readsAs_field (readsAs_string _ preset) _ _ s) (.done _)
    | some dir =>
      exact .member rfl (readsAs_field (readsAs_optional _ dir) _ _ s)
        (.member rfl (readsAs_field (readsAs_string _ preset) _ _ _) (.done _))
  · cases testsDir with
    | none => exact List.nodup_singleton _
    | some dir =>
      show ["spec_tests_dir", "preset"].Nodup
      decide

/-- **Settings are read from their tree**, wherever it has been printed. -/
theorem readsAs_toTree (s : Settings) : ReadsAs layout readSections s.toTree s := by
  have hfixtures : ReadsAs layout
      (readFixtures { maxDepth := s.maxDepth, isPretty := s.isPretty })
      (.object (fixtures s.testsDir s.preset)) { s with testsDir := s.testsDir.or none } :=
    readsAs_fixtures _ s.testsDir s.preset
  rw [Option.or_none] at hfixtures
  refine readsAs_object ?_ ?_ _
  · exact .member rfl (readsAs_limits {} s.maxDepth)
      (.member rfl (readsAs_textFormat _ s.isPretty) (.member rfl hfixtures (.done _)))
  · show ["limits", "text", "fixtures"].Nodup
    decide

/-- **Settings that have been written are read back**, in the layout that they are written in and in
the other one. -/
theorem ofJson_toText (s : Settings) :
    ofJson s.toJson = .ok s ∧ ∀ layout, ofJson (s.toTree.toText layout) = .ok s := by
  have hread (layout : Layout) : ofJson (s.toTree.toText layout) = .ok s := by
    have hsections : readSections (write layout 0 s.toTree) = .ok (s, []) := by
      have hread : ReadsAs layout readSections s.toTree s := readsAs_toTree s
      refine hread 0 [] _ ⟨rfl, by simp⟩ ?_
      rw [List.append_nil]
    rw [ofJson, toText, String.toList_ofList, readJson, hsections]
    rfl
  exact ⟨hread .compact, hread⟩

/-- A path with a quote and a depth of twenty digits. -/
example : ofJson (toJson ⟨18446744073709551615, true, some "a\"b", ""⟩) =
    .ok ⟨18446744073709551615, true, some "a\"b", ""⟩ := by
  cbv

end SszRecord.Settings

/-
Reading the scalars of flow texts.

Inside brackets a word of letters, digits and underscores is a plain scalar, up to the first
character that ends one, and a word between single quotes is a quoted scalar.

* `readPlain_word`, `readQuoted_word`.
-/
import Mathlib
import SszRecord.Proofs.Yaml.Flow

namespace SszRecord.Yaml

theorem atIndicator_eq_false {i : Input} {c : Char} (h : i.rest.head? ≠ some c) :
    i.atIndicator c = false := by
  unfold Input.atIndicator
  split
  · rename_i a b d rest hrest
    rw [hrest, List.head?_cons, Ne, Option.some_inj] at h
    rw [decide_eq_false h, Bool.and_false, Bool.false_and, Bool.false_and, Bool.false_and]
  · rfl

theorem atDocumentIndicator_eq_false {i : Input} (hdash : i.rest.head? ≠ some '-')
    (hdot : i.rest.head? ≠ some '.') : i.atDocumentIndicator = false := by
  rw [Input.atDocumentIndicator, atIndicator_eq_false hdash, atIndicator_eq_false hdot]
  rfl

/-! ### Plain scalars -/

/-- A word goes on up to what ends it. -/
theorem plainWord_word {word stop : List Char} (names : ∀ c ∈ word, isNameChar c = true)
    (h : plainWord true stop = some []) : plainWord true (word ++ stop) = some word := by
  induction word with
  | nil => exact h
  | cons c word ih =>
    obtain ⟨hc, hword⟩ := List.forall_mem_cons.1 names
    have hcolon : decide (c = ':') = false := decide_eq_false (ne_of_isNameChar hc (by decide))
    rw [List.cons_append, plainWord, isSpace_eq_false hc, hcolon, isBracketChar_eq_false hc,
      ih hword]
    rfl

/-- What ends a plain scalar inside brackets: a comma, a closing bracket or a colon. -/
def EndsPlain (stop : List Char) : Prop :=
  ∃ c rest, stop = c :: rest ∧ (c = ',' ∨ c = ']' ∨ c = '\x7d' ∨ c = ':' ∧ rest.head? = some ' ')

theorem plainWord_stop {stop : List Char} (h : EndsPlain stop) :
    plainWord true stop = some [] := by
  obtain ⟨c, rest, rfl, rfl | rfl | rfl | ⟨rfl, hrest⟩⟩ := h
  · rfl
  · rfl
  · rfl
  · obtain ⟨rest, rfl⟩ : ∃ r, rest = ' ' :: r := by
      cases rest with
      | nil => cases hrest
      | cons d r =>
        cases hrest
        exact ⟨r, rfl⟩
    rfl

theorem readPlain_word {word stop : List Char} (nonempty : word ≠ [])
    (names : ∀ c ∈ word, isNameChar c = true) (h : EndsPlain stop) {i : Input}
    (hrest : i.rest = word ++ stop) (minColumn : Nat) :
    readPlain true minColumn i = some (String.ofList word, i.advance word.length, false) := by
  obtain ⟨c, cs, rfl⟩ := List.exists_cons_of_ne_nil nonempty
  have hc := names c List.mem_cons_self
  have hne {d : Char} (hd : isNameChar d = false) : i.rest.head? ≠ some d := by
    rw [hrest, List.cons_append, List.head?_cons, Ne, Option.some_inj]
    exact ne_of_isNameChar hc hd
  have hindicator : i.atDocumentIndicator = false :=
    atDocumentIndicator_eq_false (hne (by decide)) (hne (by decide))
  have hword : plainWord true i.rest = some (c :: cs) := by
    rw [hrest, plainWord_word names (plainWord_stop h)]
  have hstop : (i.advance (c :: cs).length).rest = stop := by
    rw [Input.advance_rest, hrest, List.drop_left]
  have hspace : stop.head?.any isSpace = false := by
    obtain ⟨d, rest, rfl, rfl | rfl | rfl | ⟨rfl, -⟩⟩ := h <;> rfl
  have hwords : plainWords true minColumn (i.rest.length + 1) {} i =
      some (c :: cs, i.advance (c :: cs).length, false) := by
    rw [plainWords, hindicator, decide_eq_false (hne (d := '#') (by decide)), hword]
    show (if !(i.advance (c :: cs).length).rest.head?.any isSpace then _ else _) = _
    rw [hstop, hspace]
    rfl
  rw [readPlain, hwords]
  rfl

/-! ### Quoted scalars -/

theorem quotedWord_word {word stop : List Char} (chars : ∀ c ∈ word, isNameChar c = true)
    (h : stop.head? ≠ some '\'') {i : Input} (hrest : i.rest = word ++ '\'' :: stop) {fuel : Nat}
    (hfuel : word.length < fuel) :
    quotedWord true fuel i = some (word, i.advance word.length, false) := by
  induction word generalizing i fuel with
  | nil =>
    obtain ⟨fuel, rfl⟩ := Nat.exists_eq_succ_of_ne_zero (Nat.ne_zero_of_lt hfuel)
    rw [quotedWord, hrest]
    show (if isSpace '\'' then _ else if true && decide ('\'' = '\'') &&
      decide (stop.head? = some '\'') then _
      else if '\'' = '\'' then some ([], i, false) else _) = _
    rw [decide_eq_false h]
    rfl
  | cons c word ih =>
    obtain ⟨fuel, rfl⟩ := Nat.exists_eq_succ_of_ne_zero (Nat.ne_zero_of_lt hfuel)
    obtain ⟨hc, hword⟩ := List.forall_mem_cons.1 chars
    have hquote : c ≠ '\'' := ne_of_isNameChar hc (by decide)
    have hskip : i.skip.rest = word ++ '\'' :: stop := by
      rw [Input.skip, Input.advance_rest, hrest]
      rfl
    have htail := ih hword hskip (Nat.lt_of_succ_lt_succ hfuel)
    have hmark : i.skip.advance word.length = i.advance (word.length + 1) := by
      simp only [Input.skip, Input.advance, List.drop_drop, Nat.add_assoc, Nat.add_comm 1]
    rw [quotedWord, hrest]
    show (if isSpace c then _ else if true && decide (c = '\'') && _ then _ else
      if c = '\'' then _ else if false && _ then _ else
        (quotedWord true fuel i.skip >>= fun p => some (c :: p.1, p.2.1, p.2.2))) = _
    rw [isSpace_eq_false hc, decide_eq_false hquote, htail, hmark]
    simp only [Bool.false_eq_true, Bool.true_and, Bool.false_and, if_false, if_neg hquote]
    rfl

theorem readQuoted_word {word stop : List Char} (chars : ∀ c ∈ word, isNameChar c = true)
    (h : stop.head? ≠ some '\'') {i : Input} (hrest : i.rest = '\'' :: word ++ '\'' :: stop) :
    ∃ j, readQuoted true i = some (String.ofList word, j) ∧ j.rest = stop := by
  have hskip : i.skip.rest = word ++ '\'' :: stop := by
    rw [Input.skip, Input.advance_rest, hrest]
    rfl
  have hne {d : Char} (hd : isNameChar d = false) (hquote : '\'' ≠ d) :
      i.skip.rest.head? ≠ some d := by
    rw [hskip]
    cases word with
    | nil =>
      rw [List.nil_append, List.head?_cons, Ne, Option.some_inj]
      exact hquote
    | cons c word =>
      rw [List.cons_append, List.head?_cons, Ne, Option.some_inj]
      exact ne_of_isNameChar (chars c List.mem_cons_self) hd
  have hindicator : i.skip.atDocumentIndicator = false :=
    atDocumentIndicator_eq_false (hne (by decide) (by decide)) (hne (by decide) (by decide))
  have hempty : i.skip.rest.isEmpty = false := by
    rw [hskip]
    cases word <;> rfl
  have hword : quotedWord true i.skip.rest.length i.skip =
      some (word, i.skip.advance word.length, false) := by
    refine quotedWord_word chars h hskip ?_
    rw [hskip, List.length_append, List.length_cons]
    omega
  have hstop : (i.skip.advance word.length).rest = '\'' :: stop := by
    rw [Input.advance_rest, hskip, List.drop_left]
  refine ⟨(i.skip.advance word.length).skip, ?_, ?_⟩
  · rw [readQuoted, quotedWords, hindicator, hempty, hword]
    show (if (i.skip.advance word.length).rest.head? = some '\'' then
      some (word, (i.skip.advance word.length).skip) else _) >>= _ = _
    rw [hstop]
    rfl
  · rw [Input.skip, Input.advance_rest, hstop]
    rfl

end SszRecord.Yaml

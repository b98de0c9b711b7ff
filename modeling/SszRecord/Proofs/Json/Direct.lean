/-
Reading what has been printed straight into values.

A reader of a type finds the end of what it reads by itself, but for numbers: their digits go on as
long as something that belongs to a number follows.  In an object that has been printed a comma, a
brace or a line break follows.

* `readNumber_toDigits` : the digits of a number are read as the number;
* `ReadsAs` : a reader takes a printed tree as a value, wherever it stands;
* `readsAs_object` : a structure takes a printed object if its fields take the members.
-/
import Mathlib
import SszRecord.Json.Direct
import SszRecord.Proofs.Json.Reading
import SszRecord.Proofs.UInt256.Numerals

namespace SszRecord.Json

/-! ### Numbers -/

theorem digit?_eq_some {c : Char} (h : c.isDigit = true) :
    Text.digit? c = some (c.toNat - '0'.toNat) := by
  rw [Char.isDigit_iff_toNat] at h
  exact if_pos h

theorem leadDigit?_cons_eq_none {c : Char} {cs : List Char} :
    leadDigit? (c :: cs) = none ↔ Text.digit? c = none := Iff.rfl

/-- Digits are taken up to their end, as long as their number stays within the bound. -/
theorem takeDigits_append {bound : Nat} {ds rest : List Char} {n : Nat}
    (digits : ∀ c ∈ ds, c.isDigit = true) (fits : Nat.ofDigitChars 10 ds n ≤ bound)
    (ends : leadDigit? rest = none) :
    takeDigits bound n (ds ++ rest) = (Nat.ofDigitChars 10 ds n, ds.length, rest) := by
  induction ds generalizing n with
  | nil =>
    cases rest with
    | nil => rfl
    | cons c rest =>
      rw [List.nil_append, takeDigits, leadDigit?_cons_eq_none.1 ends]
      rfl
  | cons c ds ih =>
    obtain ⟨hc, hds⟩ := List.forall_mem_cons.1 digits
    rw [Nat.ofDigitChars_cons, Nat.mul_comm] at fits
    have hstep := le_trans (UInt256.le_ofDigitChars ds _) fits
    rw [List.cons_append, takeDigits, digit?_eq_some hc]
    show (if bound < n * 10 + (c.toNat - '0'.toNat) then _ else _) = _
    rw [if_neg (not_lt.2 hstep), ih hds fits, Nat.ofDigitChars_cons, Nat.mul_comm]
    rfl

/-- Nothing that belongs to a number stands in front of a text. -/
def NumberEnds (rest : List Char) : Prop :=
  leadDigit? rest = none ∧ ∀ c ∈ ['.', 'e', 'E'], rest.head? ≠ some c

theorem endInteger_of_ends {n : Nat} {rest : List Char} (ends : NumberEnds rest) :
    endInteger false n rest = .ok (.natural n, rest) := by
  obtain ⟨-, hrest⟩ := ends
  unfold endInteger
  split
  · exact absurd rfl (hrest '.' (by decide))
  · exact absurd rfl (hrest 'e' (by decide))
  · exact absurd rfl (hrest 'E' (by decide))
  · rfl

theorem readNumber_of_taken {isNegative : Bool} {c : Char} {cs rest : List Char} {d n count : Nat}
    (lead : Text.digit? c = some (d + 1))
    (taken : takeDigits maxWord (d + 1) cs = (n, count, rest)) (ends : leadDigit? rest = none) :
    readNumber isNegative (c :: cs) = endInteger isNegative n rest := by
  have hlead : leadDigit? (c :: cs) = some (d + 1) := lead
  simp [readNumber, hlead, taken, ends]

/-- **The digits of a number are read as the number.** -/
theorem readNumber_toDigits {n : Nat} (fits : n ≤ maxWord) {rest : List Char}
    (ends : NumberEnds rest) :
    readNumber false (Nat.toDigits 10 n ++ rest) = .ok (.natural n, rest) := by
  obtain rfl | hpos := Nat.eq_zero_or_pos n
  · have hzero : readNumber false ('0' :: rest) = endInteger false 0 rest := by
      show (if (leadDigit? rest).isSome then _ else _) = _
      rw [ends.1]
      rfl
    rw [Nat.toDigits_zero, List.singleton_append, hzero, endInteger_of_ends ends]
  · -- the first digit is not zero, and the others are taken behind it
    have hvalue : Nat.ofDigitChars 10 (Nat.toDigits 10 n) 0 = n := Nat.ofDigitChars_ten_toDigits
    have hdigits : ∀ c ∈ Nat.toDigits 10 n, c.isDigit = true := fun c hc =>
      Nat.isDigit_of_mem_toDigits (by decide) (by decide) hc
    have hhead := UInt256.head?_toDigits hpos
    obtain ⟨c, cs, hcs⟩ := List.exists_cons_of_ne_nil (Nat.toDigits_ne_nil (b := 10) (n := n))
    rw [hcs] at hvalue hdigits hhead ⊢
    obtain ⟨hc, hrest⟩ := List.forall_mem_cons.1 hdigits
    have hne : c.toNat - '0'.toNat ≠ 0 := by
      rw [Char.isDigit_iff_toNat] at hc
      have hne : c.toNat ≠ '0'.toNat := fun h => hhead (by rw [Char.toNat_inj.1 h]; rfl)
      omega
    obtain ⟨d, hd⟩ := Nat.exists_eq_succ_of_ne_zero hne
    have hlead : Text.digit? c = some (d + 1) := by rw [digit?_eq_some hc, hd]
    rw [Nat.ofDigitChars_cons, Nat.mul_zero, Nat.zero_add, hd] at hvalue
    have htaken := takeDigits_append hrest (hvalue.trans_le fits) ends.1
    rw [List.cons_append, readNumber_of_taken hlead htaken ends.1, hvalue, endInteger_of_ends ends]

/-! ### Scalars -/

variable {α σ : Type} {layout : Layout}

theorem skipBlanks_digit {c : Char} (h : c.isDigit = true) (cs : List Char) :
    skipBlanks (c :: cs) = c :: cs := by
  have hblank : ¬isBlank c = true := by
    rw [Char.isDigit_iff_toNat] at h
    intro hblank
    simp only [isBlank, Bool.or_eq_true, decide_eq_true_eq] at hblank
    obtain ((rfl | rfl) | rfl) | rfl := hblank <;> revert h <;> decide
  rw [skipBlanks, List.dropWhile_cons_of_neg hblank]

/-- A reader takes a printed tree as a value: it reads the value from the text of the tree, at any
depth, with blanks in front of it and with anything behind it that is no part of a number. -/
def ReadsAs (layout : Layout) (read : List Char → Except Fault (α × List Char)) (t : Json)
    (a : α) : Prop :=
  ∀ depth rest cs, NumberEnds rest →
    skipBlanks cs = skipBlanks (write layout depth t ++ rest) → read cs = .ok (a, rest)

theorem readsAs_word (wanted : String) (w : UInt64) :
    ReadsAs layout (readWord64 wanted) (.number (.natural w.toNat)) w := by
  intro depth rest cs ends hcs
  have htext : (toString w.toNat).toList = Nat.toDigits 10 w.toNat := String.toList_ofList
  have hread := readNumber_toDigits (n := w.toNat) (Nat.le_pred_of_lt w.toNat_lt) ends
  rw [write, Number.toText, htext] at hcs
  obtain ⟨c, ds, hds⟩ := List.exists_cons_of_ne_nil (Nat.toDigits_ne_nil (b := 10) (n := w.toNat))
  have hc : c.isDigit = true := by
    refine Nat.isDigit_of_mem_toDigits (b := 10) (n := w.toNat) (by decide) (by decide) ?_
    rw [hds]
    exact List.mem_cons_self
  rw [hds, List.cons_append] at hread hcs
  rw [skipBlanks_digit hc] at hcs
  rw [readWord64, hcs]
  split
  · cases ‹c :: (ds ++ rest) = []›
  · rw [(List.cons.inj ‹c :: (ds ++ rest) = _›).1] at hc
    cases hc
  · rename_i hcons
    obtain ⟨rfl, rfl⟩ := List.cons.inj hcons
    simp only [digit?_eq_some hc, Option.isSome_some, if_true, hread, ok_bind, Number.toWord,
      UInt64.ofNat_toNat]

theorem readsAs_bool (wanted : String) (b : Bool) :
    ReadsAs layout (readBool wanted) (.bool b) b := by
  intro depth rest cs ends hcs
  rw [readBool, hcs]
  cases b <;> rfl

theorem readsAs_string (wanted s : String) :
    ReadsAs layout (readStringOf wanted) (.string s) s := by
  intro depth rest cs ends hcs
  rw [write, quoted, List.append_assoc, List.cons_append, List.singleton_append] at hcs
  rw [readStringOf, hcs]
  exact readString_escaped s rest

/-- What begins with a quote is not missing. -/
theorem readOptional_quote {read : List Char → Except Fault (α × List Char)} {cs cs' : List Char}
    (h : skipBlanks cs = '"' :: cs') :
    readOptional read cs = (read ('"' :: cs')).map fun r => (some r.1, r.2) := by
  rw [readOptional, h]
  show (read ('"' :: cs') >>= _) = _
  cases read ('"' :: cs') <;> rfl

theorem readsAs_optional (wanted s : String) :
    ReadsAs layout (readOptional (readStringOf wanted)) (.string s) (some s) := by
  intro depth rest cs ends hcs
  rw [write, quoted, List.append_assoc, List.cons_append, List.singleton_append] at hcs
  have hread : readStringOf wanted ('"' :: (s.toList.flatMap escapeChar ++ '"' :: rest)) =
      .ok (s, rest) := readString_escaped s rest
  rw [readOptional_quote (hcs.trans rfl), hread]
  rfl

/-! ### Structures -/

/-- A field takes a tree as its reader does. -/
theorem readsAs_field {read : List Char → Except Fault (α × List Char)} {t : Json} {a : α}
    (h : ReadsAs layout read t a) (name : String) (set : α → σ → σ) (s : σ) :
    ReadsAs layout ((FieldReader.of name read set).read s) t (set a s) := by
  intro depth rest cs ends hcs
  have hread := h depth rest cs ends hcs
  simp only [FieldReader.of, hread, ok_bind, pure_eq_ok]

/-- The members of an object, taken one after another by the fields of their keys. -/
inductive Fills (layout : Layout) (fields : List (FieldReader σ)) :
    σ → List (String × Json) → σ → Prop
  | done (s : σ) : Fills layout fields s [] s
  | member {s s' s'' : σ} {key : String} {field : FieldReader σ} {value : Json}
      {members : List (String × Json)} (known : fields.find? (·.name = key) = some field)
      (taken : ReadsAs layout (field.read s) value s') (others : Fills layout fields s' members s'') :
      Fills layout fields s ((key, value) :: members) s''

theorem numberEnds_tail (depth : Nat) (members : List (String × Json)) (rest : List Char) :
    NumberEnds (membersTail layout (depth + 1) members ++ (layout.lineBreak depth ++ '\x7d' :: rest))
    := by
  cases members with
  | nil => cases layout <;> exact ⟨rfl, by simp [membersTail, Layout.lineBreak]⟩
  | cons m members =>
    rw [membersTail_append]
    exact ⟨rfl, by simp⟩

variable {fields : List (FieldReader σ)}

/-- Where a member comes next, its field takes it, and then the members behind it are read. -/
theorem readObjectFields_of_next {isFirst : Bool} {depth : Nat} {seen : List String}
    {s s' : σ} {key : String} {field : FieldReader σ} {value : Json} {cs rest : List Char}
    {fuel : Nat} {answer : Except Fault (σ × List Char)}
    (next : nextKey isFirst cs =
      .ok (.more (memberBody layout (depth + 1) (key, value) ++ rest)))
    (known : fields.find? (·.name = key) = some field) (new : key ∉ seen)
    (taken : ReadsAs layout (field.read s) value s') (ends : NumberEnds rest)
    (others : readObjectFields fields fuel false (key :: seen) s' rest = answer) :
    readObjectFields fields (fuel + 1) isFirst seen s cs = answer := by
  have hread := taken (depth + 1) rest _ ends
    (skipBlanks_colon layout (write layout (depth + 1) value ++ rest))
  have hkey : readString (memberBody layout (depth + 1) (key, value) ++ rest) =
      .ok (key, layout.colon ++ (write layout (depth + 1) value ++ rest)) := by
    rw [memberBody, List.append_assoc, List.cons_append, readString_escaped, List.append_assoc]
  have hseen : seen.contains key = false := by simpa using new
  simp only [readObjectFields, next, ok_bind, hkey, known, hseen, readColon_colon, hread, others]
  rfl

theorem readObjectFields_tail {s s' : σ} {members : List (String × Json)}
    (fills : Fills layout fields s members s') (distinct : (members.map Prod.fst).Nodup)
    {depth : Nat} {seen : List String} (new : ∀ m ∈ members, m.1 ∉ seen) {fuel : Nat}
    (h : members.length < fuel) (rest : List Char) :
    readObjectFields fields fuel false seen s
      (membersTail layout (depth + 1) members ++ (layout.lineBreak depth ++ '\x7d' :: rest)) =
      .ok (s', rest) := by
  induction fills generalizing seen fuel with
  | done s =>
    obtain ⟨fuel, rfl⟩ := Nat.exists_eq_succ_of_ne_zero (Nat.ne_zero_of_lt h)
    rw [readObjectFields, membersTail, List.flatMap_nil, List.nil_append, nextKey_close]
    rfl
  | @member s s' s'' key field value members known taken _ ih =>
    obtain ⟨fuel, rfl⟩ := Nat.exists_eq_succ_of_ne_zero (Nat.ne_zero_of_lt h)
    obtain ⟨hself, hnew⟩ := List.forall_mem_cons.1 new
    rw [List.map_cons, List.nodup_cons] at distinct
    have hlater : ∀ m ∈ members, m.1 ∉ key :: seen := by
      intro m hm
      have hne : m.1 ≠ key := fun heq => distinct.1 (List.mem_map.2 ⟨m, hm, heq⟩)
      exact List.not_mem_cons_of_ne_of_not_mem hne (hnew m hm)
    rw [membersTail_append]
    exact readObjectFields_of_next (nextKey_comma _) known hself taken (numberEnds_tail ..)
      (ih distinct.2 hlater (Nat.lt_of_succ_lt_succ h))

/-- **A structure takes a printed object if its fields take the members.** -/
theorem readsAs_object {s s' : σ} {members : List (String × Json)}
    (fills : Fills layout fields s members s') (distinct : (members.map Prod.fst).Nodup)
    (wanted : String) :
    ReadsAs layout (readStructure wanted fields s) (.object members) s' := by
  intro depth rest cs ends hcs
  cases fills with
  | done =>
    rw [write] at hcs
    rw [readStructure, hcs]
    rfl
  | @member _ s₁ _ key field value members known taken others =>
    rw [List.map_cons, List.nodup_cons] at distinct
    have hlater : ∀ m ∈ members, m.1 ∉ [key] := by
      intro m hm
      rw [List.mem_singleton]
      exact fun heq => distinct.1 (List.mem_map.2 ⟨m, hm, heq⟩)
    have hcount := length_le_membersTail layout (depth + 1) members
    rw [write_object_append] at hcs
    rw [readStructure, hcs]
    refine readObjectFields_of_next (nextKey_first _) known (List.not_mem_nil) taken
      (numberEnds_tail ..) (readObjectFields_tail others distinct.2 hlater ?_ rest)
    simp only [List.length_append, List.length_cons]
    omega

end SszRecord.Json

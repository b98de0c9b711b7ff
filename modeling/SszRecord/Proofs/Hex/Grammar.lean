/-
The grammar of hexadecimal text.

A text is read without the mark that it may begin with.  What is left is read exactly if it consists
of pairs of digits of either case; an odd number of bytes is refused as such, whatever they are; and
otherwise the first byte that is no digit is named, be it a character or a part of one.

* `Bytes.ofText_eq_ofChars`, `Bytes.eq_cons_of_ofChars` : ASCII bytes are characters of the text;
* `Hex.stripMark_ofText` : the mark is cut off the bytes exactly where it is cut off the characters;
* `Hex.readPairs_total` : pairs are read to the end, or up to the first byte that is no digit;
* `Hex.ofText_exact` : which texts are read, and what the others are refused for.
-/
import Mathlib
import SszRecord.Proofs.Hex

namespace SszRecord

/-! ### Characters and bytes -/

namespace Bytes

/-- The UTF-8 bytes of characters. -/
def ofChars (cs : List Char) : Bytes := cs.flatMap String.utf8EncodeChar

theorem ofText_eq_ofChars (s : String) : ofText s = ofChars s.toList := by
  have hlist : s.toByteArray = s.toList.utf8Encode := by
    rw [← String.toByteArray_ofList, String.ofList_toList]
  rw [ofText, String.toUTF8_eq_toByteArray, hlist, List.utf8Encode, List.data_toByteArray]
  rfl

theorem utf8EncodeChar_of_lt {c : Char} (h : c.toNat < 128) :
    String.utf8EncodeChar c = [UInt8.ofNat c.toNat] := by
  rw [String.utf8EncodeChar]
  exact if_pos (Nat.le_of_lt_succ h)

/-- The bytes of a character that is not ASCII are not ASCII either. -/
theorem le_of_mem_utf8EncodeChar {c : Char} (h : 128 ≤ c.toNat) :
    ∀ b ∈ String.utf8EncodeChar c, 128 ≤ b.toNat := by
  have hcode : c.toNat = c.val.toNat := rfl
  rw [String.utf8EncodeChar]
  split_ifs
  -- one to four bytes; the case of one byte contradicts `h`
  all_goals
    simp only [List.mem_cons, List.not_mem_nil, or_false, forall_eq_or_imp, forall_eq,
      UInt8.toNat_ofNat']
    omega

theorem charOf_ofNat {c : Char} (h : c.toNat < 128) :
    Char.ofNat (UInt8.ofNat c.toNat).toNat = c := by
  rw [UInt8.toNat_ofNat', Nat.mod_eq_of_lt (by omega), Char.ofNat_toNat]

/-- A text whose first byte is ASCII begins with this byte as a character. -/
theorem eq_cons_of_ofChars {cs : List Char} {b : UInt8} {rest : Bytes} (h : ofChars cs = b :: rest)
    (hb : b.toNat < 128) : ∃ cs', cs = Char.ofNat b.toNat :: cs' ∧ ofChars cs' = rest := by
  cases cs with
  | nil => cases h
  | cons c cs =>
    rw [ofChars, List.flatMap_cons] at h
    rcases Nat.lt_or_ge c.toNat 128 with hlt | hge
    · rw [utf8EncodeChar_of_lt hlt, List.singleton_append, List.cons.injEq] at h
      obtain ⟨rfl, hrest⟩ := h
      exact ⟨cs, by rw [charOf_ofNat hlt], hrest⟩
    · obtain ⟨b', bs, hbytes⟩ := List.exists_cons_of_ne_nil (String.utf8EncodeChar_ne_nil (c := c))
      have hfirst := le_of_mem_utf8EncodeChar hge b' (by simp [hbytes])
      rw [hbytes, List.cons_append, List.cons.injEq] at h
      obtain ⟨rfl, -⟩ := h
      omega

/-- A text of ASCII bytes consists of these bytes as characters. -/
theorem eq_map_of_ofChars {cs : List Char} (h : ∀ b ∈ ofChars cs, b.toNat < 128) :
    cs = (ofChars cs).map fun b => Char.ofNat b.toNat := by
  induction cs with
  | nil => rfl
  | cons c cs ih =>
    rw [ofChars, List.flatMap_cons, List.forall_mem_append] at h
    obtain ⟨hc, hcs⟩ := h
    have hlt : c.toNat < 128 := by
      obtain ⟨b, bs, hbytes⟩ := List.exists_cons_of_ne_nil (String.utf8EncodeChar_ne_nil (c := c))
      have hb : b ∈ String.utf8EncodeChar c := by simp [hbytes]
      by_contra hge
      exact absurd (hc b hb) (not_lt.2 (le_of_mem_utf8EncodeChar (not_lt.1 hge) b hb))
    rw [ofChars, List.flatMap_cons, utf8EncodeChar_of_lt hlt, List.map_append, List.map_singleton,
      charOf_ofNat hlt, List.singleton_append]
    exact congrArg (c :: ·) (ih hcs)

end Bytes

namespace Hex

/-! ### The mark -/

/-- Characters without the mark, if they begin with one. -/
def stripChars : List Char → List Char
  | '0' :: 'x' :: rest => rest
  | cs => cs

/-- A text without its mark, if it begins with one. -/
def withoutMark (s : String) : String := String.ofList (stripChars s.toList)

theorem stripMark_ofText (s : String) :
    stripMark (Bytes.ofText s) = Bytes.ofText (withoutMark s) := by
  rw [Bytes.ofText_eq_ofChars, Bytes.ofText_eq_ofChars, withoutMark, String.toList_ofList]
  rw [stripMark.eq_def, stripChars.eq_def]
  split
  · rename_i rest h
    obtain ⟨cs, hcs, hrest⟩ := Bytes.eq_cons_of_ofChars h (by decide)
    obtain ⟨cs', rfl, hrest'⟩ := Bytes.eq_cons_of_ofChars hrest (by decide)
    rw [hcs]
    exact hrest'.symm
  · rename_i h
    split
    -- the mark is ASCII, so characters that begin with it would show it in their bytes
    · rename_i rest hs
      exact absurd (congrArg Bytes.ofChars hs) (h _)
    · rfl

/-! ### Digits -/

/-- Digits of either case. -/
def IsDigit (c : UInt8) : Prop := Char.ofNat c.toNat ∈ "0123456789abcdefABCDEF".toList

instance (c : UInt8) : Decidable (IsDigit c) := inferInstanceAs (Decidable (_ ∈ _))

/-- A byte with capital letters made small. -/
def lower (c : UInt8) : UInt8 := if 65 ≤ c.toNat ∧ c.toNat ≤ 90 then c + 32 else c

/-- What a byte is to the reader: no digit, or the digit of a value. -/
theorem value?_table : ∀ n, n < 256 → (value? (UInt8.ofNat n) = none ∧ ¬IsDigit (UInt8.ofNat n)) ∨
    ∃ v, v < 16 ∧ value? (UInt8.ofNat n) = some v ∧ IsDigit (UInt8.ofNat n) ∧
      lower (UInt8.ofNat n) = digit v := by
  decide +kernel

theorem value?_eq (c : UInt8) : (value? c = none ∧ ¬IsDigit c) ∨
    ∃ v, v < 16 ∧ value? c = some v ∧ IsDigit c ∧ lower c = digit v := by
  have h := value?_table c.toNat c.toNat_lt
  rwa [UInt8.ofNat_toNat] at h

theorem lt_of_isDigit_table : ∀ n, n < 256 → IsDigit (UInt8.ofNat n) → n < 128 := by
  decide +kernel

theorem toLower_table : ∀ n, n < 128 →
    Char.ofNat (lower (UInt8.ofNat n)).toNat = (Char.ofNat n).toLower := by
  decide +kernel

/-! ### Pairs -/

/-- The byte at a position is the first one that is no digit. -/
def IsFirstBad (text : Bytes) (i : Nat) (c : UInt8) : Prop :=
  text[i]? = some c ∧ ¬IsDigit c ∧ ∀ c' ∈ text.take i, IsDigit c'

/-- The digits of the byte that two digits make. -/
theorem digits_ofNat {h l : Nat} (hh : h < 16) (hl : l < 16) :
    digits (UInt8.ofNat (16 * h + l)) = [digit h, digit l] := by
  have hvalue : (UInt8.ofNat (16 * h + l)).toNat = 16 * h + l := by
    rw [UInt8.toNat_ofNat']
    omega
  have hhigh : (16 * h + l) / 16 = h := by omega
  have hlow : (16 * h + l) % 16 = l := by omega
  rw [digits, hvalue, hhigh, hlow]

/-- **Pairs are read to the end, or up to the first byte that is no digit.** -/
theorem readPairs_total (position : Nat) (text : Bytes) (even : text.length % 2 = 0) :
    (∃ b, readPairs position text = .ok b ∧ (∀ c ∈ text, IsDigit c) ∧
      text.map lower = encode b) ∨
    ∃ i c, IsFirstBad text i c ∧
      readPairs position text = .error (.badDigit c (position + i)) := by
  -- a pair is given up at its first digit already, so the second one is looked at only behind it
  induction position, text using readPairs.induct with
  | case1 position high low rest ih =>
    rw [List.length_cons, List.length_cons] at even
    rw [readPairs, readDigit, readDigit]
    obtain ⟨hhigh, bad⟩ | ⟨h, hh, hhigh, digitHigh, lowerHigh⟩ := value?_eq high
    · refine .inr ⟨0, high, ⟨rfl, bad, List.forall_mem_nil _⟩, ?_⟩
      rw [hhigh]
      rfl
    obtain ⟨hlow, bad⟩ | ⟨l, hl, hlow, digitLow, lowerLow⟩ := value?_eq low
    · refine .inr ⟨1, low, ⟨rfl, bad, ?_⟩, ?_⟩
      · exact List.forall_mem_singleton.2 digitHigh
      · rw [hhigh, hlow]
        rfl
    rw [hhigh, hlow]
    obtain ⟨b, hb, digits', lower'⟩ | ⟨i, c, ⟨hat, bad, inFront⟩, hc⟩ := ih (by omega)
    · refine .inl ⟨UInt8.ofNat (16 * h + l) :: b, ?_, ?_, ?_⟩
      · simp only [hb, bind, Except.bind, pure, Except.pure]
      · exact List.forall_mem_cons.2 ⟨digitHigh, List.forall_mem_cons.2 ⟨digitLow, digits'⟩⟩
      · rw [encode, List.flatMap_cons, digits_ofNat hh hl, List.map_cons, List.map_cons, lowerHigh,
          lowerLow, lower']
        rfl
    · refine .inr ⟨i + 2, c, ⟨hat, bad, ?_⟩, ?_⟩
      · exact List.forall_mem_cons.2 ⟨digitHigh, List.forall_mem_cons.2 ⟨digitLow, inFront⟩⟩
      · simp only [hc, bind, Except.bind, Except.error.injEq, Fault.badDigit.injEq, true_and]
        omega
  | case2 text position short =>
    rcases text with _ | ⟨c, _ | ⟨low, rest⟩⟩
    · exact .inl ⟨[], rfl, List.forall_mem_nil _, rfl⟩
    · cases even
    · exact absurd rfl (short c low rest)

/-! ### Answers -/

section Answers

variable {text : Bytes} {i i' : Nat} {c c' : UInt8}

theorem IsFirstBad.not_forall (h : IsFirstBad text i c) : ¬∀ c' ∈ text, IsDigit c' :=
  fun all => h.2.1 (all c (List.mem_of_getElem? h.1))

theorem IsFirstBad.le (h : IsFirstBad text i c) (h' : IsFirstBad text i' c') : i' ≤ i := by
  by_contra hlt
  refine h.2.1 (h'.2.2 c (List.mem_of_getElem? (i := i) ?_))
  rw [List.getElem?_take_of_lt (not_le.1 hlt), h.1]

/-- There is only one first byte that is no digit. -/
theorem IsFirstBad.unique (h : IsFirstBad text i c) (h' : IsFirstBad text i' c') :
    c = c' ∧ i = i' := by
  obtain rfl : i = i' := Nat.le_antisymm (h'.le h) (h.le h')
  have hat := h.1.symm.trans h'.1
  exact ⟨Option.some_inj.1 hat, rfl⟩

/-- What a digit string is answered with. -/
theorem decode_total (text : Bytes) :
    (text.length % 2 = 1 ∧ decode text = .error .oddLength) ∨
    text.length % 2 = 0 ∧
      ((∃ b, decode text = .ok b ∧ (∀ c ∈ text, IsDigit c) ∧ text.map lower = encode b) ∨
      ∃ i c, IsFirstBad text i c ∧ decode text = .error (.badDigit c i)) := by
  rw [decode]
  rcases Nat.mod_two_eq_zero_or_one text.length with even | odd
  · rw [if_pos even]
    refine .inr ⟨even, (readPairs_total 0 text even).imp_right ?_⟩
    rintro ⟨i, c, bad, h⟩
    rw [Nat.zero_add] at h
    exact ⟨i, c, bad, h⟩
  · rw [if_neg (by omega)]
    exact .inl ⟨odd, rfl⟩

theorem decode_of_ok {b : Bytes} (h : decode text = .ok b) :
    text.length % 2 = 0 ∧ (∀ c ∈ text, IsDigit c) ∧ text.map lower = encode b := by
  obtain ⟨-, h'⟩ | ⟨even, ⟨b', h', digits, hlower⟩ | ⟨i, c, -, h'⟩⟩ := decode_total text
  · cases h.symm.trans h'
  · cases h.symm.trans h'
    exact ⟨even, digits, hlower⟩
  · cases h.symm.trans h'

theorem exists_decode_iff :
    (∃ b, decode text = .ok b) ↔ text.length % 2 = 0 ∧ ∀ c ∈ text, IsDigit c := by
  constructor
  · rintro ⟨b, h⟩
    obtain ⟨even, digits, -⟩ := decode_of_ok h
    exact ⟨even, digits⟩
  · rintro ⟨even, digits⟩
    obtain ⟨odd, -⟩ | ⟨-, ⟨b, h, -⟩ | ⟨i, c, bad, -⟩⟩ := decode_total text
    · omega
    · exact ⟨b, h⟩
    · exact absurd digits bad.not_forall

theorem decode_eq_oddLength : decode text = .error .oddLength ↔ text.length % 2 = 1 := by
  obtain ⟨odd, h⟩ | ⟨even, ⟨b, h, -⟩ | ⟨i, c, -, h⟩⟩ := decode_total text
  · exact ⟨fun _ => odd, fun _ => h⟩
  all_goals
    rw [h]
    exact ⟨nofun, fun odd => by omega⟩

theorem decode_eq_badDigit :
    decode text = .error (.badDigit c i) ↔ text.length % 2 = 0 ∧ IsFirstBad text i c := by
  obtain ⟨odd, h⟩ | ⟨even, ⟨b, h, digits, -⟩ | ⟨i', c', bad, h⟩⟩ := decode_total text
  · rw [h]
    exact ⟨nofun, fun hbad => by omega⟩
  · rw [h]
    exact ⟨nofun, fun hbad => absurd digits hbad.2.not_forall⟩
  · rw [h, Except.error.injEq, Fault.badDigit.injEq]
    constructor
    · rintro ⟨rfl, rfl⟩
      exact ⟨even, bad⟩
    · rintro ⟨-, bad'⟩
      exact bad.unique bad'

end Answers

theorem ofText_eq (s : String) : ofText s = decode (Bytes.ofText (withoutMark s)) := by
  rw [ofText, stripMark_ofText]

/-- Characters are made small by making their bytes small, if they are ASCII. -/
theorem map_toLower {cs : List Char} (ascii : ∀ b ∈ Bytes.ofChars cs, b.toNat < 128) :
    cs.map Char.toLower = ((Bytes.ofChars cs).map lower).map fun b => Char.ofNat b.toNat := by
  conv_lhs => rw [Bytes.eq_map_of_ofChars ascii]
  rw [List.map_map, List.map_map]
  refine List.map_congr_left fun b hb => ?_
  have htable := toLower_table b.toNat (ascii b hb)
  rw [UInt8.ofNat_toNat] at htable
  exact htable.symm

/-- What has been read is written as it was, with the mark and in small letters. -/
theorem toText_of_ofText {s : String} {b : Bytes} (h : ofText s = .ok b) :
    toText b = "0x" ++ (withoutMark s).toLower := by
  rw [ofText_eq, Bytes.ofText_eq_ofChars] at h
  obtain ⟨-, digits, hlower⟩ := decode_of_ok h
  have ascii : ∀ c ∈ Bytes.ofChars (withoutMark s).toList, c.toNat < 128 := by
    intro c hc
    have hdigit := digits c hc
    rw [← UInt8.ofNat_toNat (x := c)] at hdigit
    exact lt_of_isDigit_table c.toNat c.toNat_lt hdigit
  rw [toText, ← hlower, ← map_toLower ascii, ← String.toList_map, String.ofList_toList,
    String.toLower]

/-- **Hexadecimal text is read exactly by its grammar.**  What is written is read back.  A text,
taken without the mark that it may begin with, is read exactly if it has an even number of bytes
that are all digits of either case, and is then written again with the mark and in small letters;
it is refused for its length exactly if this is odd; and otherwise for the first byte that is no
digit, which is named with its position. -/
theorem ofText_exact (b : Bytes) (s : String) :
    ofText (toText b) = .ok b ∧
      ((∃ b', ofText s = .ok b') ↔ (Bytes.ofText (withoutMark s)).length % 2 = 0 ∧
        ∀ c ∈ Bytes.ofText (withoutMark s), IsDigit c) ∧
      (∀ b', ofText s = .ok b' → toText b' = "0x" ++ (withoutMark s).toLower) ∧
      (ofText s = .error .oddLength ↔ (Bytes.ofText (withoutMark s)).length % 2 = 1) ∧
      ∀ c i, ofText s = .error (.badDigit c i) ↔ (Bytes.ofText (withoutMark s)).length % 2 = 0 ∧
        IsFirstBad (Bytes.ofText (withoutMark s)) i c := by
  refine ⟨ofText_toText b, ?_, fun _ => toText_of_ofText, ?_, fun c i => ?_⟩
  · rw [ofText_eq]
    exact exists_decode_iff
  · rw [ofText_eq]
    exact decode_eq_oddLength
  · rw [ofText_eq]
    exact decode_eq_badDigit

/-- Capital letters are read, and written small. -/
theorem ofText_exact_capitals :
    ofText "0xAB01" = .ok [171, 1] ∧ toText [171, 1] = "0x" ++ "AB01".toLower := by
  have h : ofText "0xAB01" = .ok [171, 1] := by decide
  obtain ⟨-, -, written, -⟩ := ofText_exact [] "0xAB01"
  have hmark : withoutMark "0xAB01" = "AB01" := by decide
  exact ⟨h, hmark ▸ written _ h⟩

/-- Only one mark is cut off, and a character of two bytes counts as two and is named by its
first. -/
example : ofText "0x0x12" = .error (.badDigit 120 1) ∧ ofText "0xé" = .error (.badDigit 195 0) ∧
    ofText "0xaé" = .error .oddLength := by
  decide

end Hex

end SszRecord

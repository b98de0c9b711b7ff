/-
Decimal numerals.

A text of digits denotes a number, and every number has one numeral among them: the text that has
no zero in front unless it is the only digit (`IsNumeral`).  Reading accepts every text of digits
and says which of three ways another text fails in; printing gives the numeral.

* `isNumeral_iff` : the numeral of a number is unique, and consists of its digits;
* `ofDecimal_exact` : what reading answers, for every text and every width;
* `toDecimal_canonical` : printing gives the numeral, which is read back, and printing what has been
  read leaves out the zeros that say nothing.
-/
import Mathlib
import SszRecord.Proofs.UInt256.Bytes
import SszRecord.Proofs.UInt256.Decimal

namespace SszRecord.UInt256

/-! ### Numerals -/

/-- The decimal numeral of a number. -/
structure IsNumeral (n : Nat) (cs : List Char) : Prop where
  nonempty : cs ≠ []
  digits : ∀ c ∈ cs, c.isDigit = true
  value : Nat.ofDigitChars 10 cs 0 = n
  /-- A zero in front is the whole numeral. -/
  canonical : cs.head? = some '0' → cs = ['0']

/-- A text of digits without the zeros that say nothing; its last digit stays. -/
def withoutZeros : List Char → List Char
  | [] => []
  | [c] => [c]
  | c :: d :: rest => if c = '0' then withoutZeros (d :: rest) else c :: d :: rest

/-- The digit of a digit's value is the digit. -/
theorem toDigits_digit {c : Char} (h : c.isDigit = true) :
    Nat.toDigits 10 (c.toNat - '0'.toNat) = [c] := by
  rw [Nat.toDigits_of_lt_base (digit_lt h)]
  rw [Char.isDigit_iff_toNat] at h
  have hzero : '0'.toNat = 48 := rfl
  have hnine : '9'.toNat = 57 := rfl
  obtain ⟨d, hd⟩ := Nat.exists_eq_add_of_le h.1
  have hlt : d < 10 := by omega
  have hc : c = Char.ofNat (48 + d) := by
    rw [← hzero, ← hd, Char.ofNat_toNat]
  rw [hd, Nat.add_sub_cancel_left, hc]
  interval_cases d <;> rfl

/-- Digits behind a number that is not zero are digits of the number that they make with it. -/
theorem toDigits_ofDigitChars {cs : List Char} (digits : ∀ c ∈ cs, c.isDigit = true) {n : Nat}
    (hn : 0 < n) : Nat.toDigits 10 (Nat.ofDigitChars 10 cs n) = Nat.toDigits 10 n ++ cs := by
  induction cs generalizing n with
  | nil => rw [Nat.ofDigitChars_nil, List.append_nil]
  | cons c cs ih =>
    obtain ⟨hc, hcs⟩ := List.forall_mem_cons.1 digits
    rw [Nat.ofDigitChars_cons, ih hcs (by omega),
      ← Nat.toDigits_append_toDigits (by decide) hn (digit_lt hc), toDigits_digit hc,
      List.append_assoc, List.singleton_append]

theorem head?_toDigits {n : Nat} (hn : 0 < n) : (Nat.toDigits 10 n).head? ≠ some '0' := by
  induction n using Nat.strong_induction_on with
  | _ n ih =>
    rw [Nat.toDigits_eq_if (by decide)]
    split
    · interval_cases n <;> decide
    · rw [List.head?_append_of_ne_nil _ Nat.toDigits_ne_nil]
      exact ih (n / 10) (by omega) (by omega)

/-- **A number has one numeral**, which consists of its digits. -/
theorem isNumeral_iff {n : Nat} {cs : List Char} : IsNumeral n cs ↔ cs = Nat.toDigits 10 n := by
  constructor
  · -- The first digit is not zero, unless it is the only one; `toDigits` then begins with it.
    rintro ⟨nonempty, digits, rfl, canonical⟩
    obtain ⟨c, rest, rfl⟩ := List.exists_cons_of_ne_nil nonempty
    obtain ⟨hc, hrest⟩ := List.forall_mem_cons.1 digits
    by_cases hzero : c = '0'
    · subst hzero
      rw [canonical rfl]
      rfl
    · have hpos : 0 < c.toNat - '0'.toNat := by
        rw [Char.isDigit_iff_toNat] at hc
        have hne : c.toNat ≠ '0'.toNat := fun h => hzero (Char.toNat_inj.1 h)
        omega
      rw [Nat.ofDigitChars_cons, Nat.mul_zero, Nat.zero_add, toDigits_ofDigitChars hrest hpos,
        toDigits_digit hc, List.singleton_append]
  · rintro rfl
    refine ⟨Nat.toDigits_ne_nil, fun c hc => ?_, Nat.ofDigitChars_ten_toDigits, fun h => ?_⟩
    · exact Nat.isDigit_of_mem_toDigits (by decide) (by decide) hc
    · obtain rfl | hn := Nat.eq_zero_or_pos n
      · exact Nat.toDigits_zero 10
      · exact absurd h (head?_toDigits hn)

theorem isNumeral_withoutZeros {cs : List Char} (nonempty : cs ≠ [])
    (digits : ∀ c ∈ cs, c.isDigit = true) :
    IsNumeral (Nat.ofDigitChars 10 cs 0) (withoutZeros cs) := by
  induction cs using withoutZeros.induct with
  | case1 => exact absurd rfl nonempty
  | case2 c =>
    refine ⟨nonempty, digits, rfl, fun h => ?_⟩
    rw [withoutZeros, List.head?_cons, Option.some_inj] at h
    rw [withoutZeros, h]
  | case3 d rest ih =>
    rw [withoutZeros, if_pos rfl]
    exact ih (List.cons_ne_nil _ _) (List.forall_mem_cons.1 digits).2
  | case4 c d rest hc =>
    rw [withoutZeros, if_neg hc]
    refine ⟨nonempty, digits, rfl, fun h => ?_⟩
    rw [List.head?_cons, Option.some_inj] at h
    exact absurd h hc

/-! ### Reading -/

theorem ofDecimal_eq_ite (s : String) :
    ofDecimal s =
      if s = "" then .error .empty
      else if size ≤ Nat.ofDigitChars 10 (s.toList.takeWhile Char.isDigit) 0 then .error .overflow
      else if ∀ c ∈ s.toList, c.isDigit = true then .ok (ofNat (Nat.ofDigitChars 10 s.toList 0))
      else .error .badDigit := by
  rw [ofDecimal]
  by_cases h : s = ""
  · subst h
    rfl
  · have hne : s.toList ≠ [] := fun h0 => h (String.toList_eq_nil_iff.1 h0)
    obtain ⟨c, cs, hcs⟩ := List.exists_cons_of_ne_nil hne
    rw [if_neg h, hcs]
    exact readDigits_eq_ite zero (c :: cs)

section Answers

variable {s : String}

theorem takeWhile_of_digits (digits : ∀ c ∈ s.toList, c.isDigit = true) :
    s.toList.takeWhile Char.isDigit = s.toList :=
  List.takeWhile_eq_self_iff.2 digits

theorem ofDecimal_eq_ok {v : UInt256} :
    ofDecimal s = .ok v ↔ s ≠ "" ∧ (∀ c ∈ s.toList, c.isDigit = true) ∧
      Nat.ofDigitChars 10 s.toList 0 < size ∧ v.toNat = Nat.ofDigitChars 10 s.toList 0 := by
  rw [ofDecimal_eq_ite]
  split_ifs with hempty hlarge hdigits
  · exact ⟨nofun, fun h => absurd hempty h.1⟩
  · refine ⟨nofun, fun ⟨_, hdigits, hlt, _⟩ => ?_⟩
    rw [takeWhile_of_digits hdigits] at hlarge
    exact absurd hlt (not_lt.2 hlarge)
  · rw [takeWhile_of_digits hdigits, not_le] at hlarge
    rw [Except.ok.injEq, ← toNat_inj, toNat_ofNat_of_lt hlarge]
    exact ⟨fun h => ⟨hempty, hdigits, hlarge, h.symm⟩, fun h => h.2.2.2.symm⟩
  · exact ⟨nofun, fun h => absurd h.2.1 hdigits⟩

theorem ofDecimal_eq_empty : ofDecimal s = .error .empty ↔ s = "" := by
  rw [ofDecimal_eq_ite]
  split_ifs with hempty
  · exact ⟨fun _ => hempty, fun _ => rfl⟩
  all_goals exact ⟨nofun, fun h => absurd h hempty⟩

theorem ofDecimal_eq_overflow :
    ofDecimal s = .error .overflow ↔
      size ≤ Nat.ofDigitChars 10 (s.toList.takeWhile Char.isDigit) 0 := by
  rw [ofDecimal_eq_ite]
  split_ifs with hempty hlarge
  · subst hempty
    exact ⟨nofun, fun h => absurd h (by decide)⟩
  · exact ⟨fun _ => hlarge, fun _ => rfl⟩
  all_goals exact ⟨nofun, fun h => absurd h hlarge⟩

theorem ofDecimal_eq_badDigit :
    ofDecimal s = .error .badDigit ↔
      Nat.ofDigitChars 10 (s.toList.takeWhile Char.isDigit) 0 < size ∧
        ∃ c ∈ s.toList, c.isDigit = false := by
  have hnone : (∃ c ∈ s.toList, c.isDigit = false) ↔ ¬∀ c ∈ s.toList, c.isDigit = true := by
    simp only [not_forall, Bool.not_eq_true, exists_prop]
  rw [ofDecimal_eq_ite, hnone]
  split_ifs with hempty hlarge hdigits
  · subst hempty
    exact ⟨nofun, fun h => absurd (List.forall_mem_nil _) h.2⟩
  · exact ⟨nofun, fun h => absurd h.1 (not_lt.2 hlarge)⟩
  · exact ⟨nofun, fun h => absurd hdigits h.2⟩
  · exact ⟨fun _ => ⟨not_le.1 hlarge, hdigits⟩, fun _ => rfl⟩

end Answers

/-- A width refuses what is too large for it, and changes nothing else. -/
theorem ofDecimalWidth_eq (w : Nat) (s : String) :
    ofDecimalWidth w s =
      ofDecimal s >>= fun v => if 256 ^ w ≤ v.toNat then .error .overflow else .ok v := by
  rw [ofDecimalWidth]
  congr 1
  funext v
  by_cases h : v.FitsWidth w
  · rw [if_neg (not_le.2 ((fitsWidth_iff v w).1 h))]
    exact if_pos h
  · rw [if_pos (not_lt.1 (mt (fitsWidth_iff v w).2 h))]
    exact if_neg h

/-- **Reading is exact.**  A text that is not empty and consists of digits is read as its number, if
that fits; the empty text is refused as such; a text is too large exactly if the digits that it
begins with are, whatever follows; and every other text has a character that is no digit.  A width
refuses the numbers that are too large for it. -/
theorem ofDecimal_exact (s : String) (w : Nat) :
    (∀ v, ofDecimal s = .ok v ↔ s ≠ "" ∧ (∀ c ∈ s.toList, c.isDigit = true) ∧
        Nat.ofDigitChars 10 s.toList 0 < size ∧ v.toNat = Nat.ofDigitChars 10 s.toList 0) ∧
      (ofDecimal s = .error .empty ↔ s = "") ∧
      (ofDecimal s = .error .overflow ↔
        size ≤ Nat.ofDigitChars 10 (s.toList.takeWhile Char.isDigit) 0) ∧
      (ofDecimal s = .error .badDigit ↔
        Nat.ofDigitChars 10 (s.toList.takeWhile Char.isDigit) 0 < size ∧
          ∃ c ∈ s.toList, c.isDigit = false) ∧
      ofDecimalWidth w s =
        ofDecimal s >>= fun v => if 256 ^ w ≤ v.toNat then .error .overflow else .ok v :=
  ⟨fun _ => ofDecimal_eq_ok, ofDecimal_eq_empty, ofDecimal_eq_overflow, ofDecimal_eq_badDigit,
    ofDecimalWidth_eq w s⟩

/-- A number that is too large is reported before the character behind it. -/
example : ofDecimal
    "115792089237316195423570985008687907853269984665640564039457584007913129639936?" =
      .error .overflow := by
  rfl

/-! ### Printing -/

/-- What has been read is printed without the zeros that say nothing. -/
theorem toDecimal_of_ofDecimal {s : String} {v : UInt256} (h : ofDecimal s = .ok v) :
    v.toDecimal = String.ofList (withoutZeros s.toList) := by
  obtain ⟨nonempty, digits, -, hvalue⟩ := ofDecimal_eq_ok.1 h
  have hne : s.toList ≠ [] := fun h0 => nonempty (String.toList_eq_nil_iff.1 h0)
  rw [toDecimal, decimalDigits_eq, hvalue,
    isNumeral_iff.1 (isNumeral_withoutZeros hne digits)]

/-- **Printing is canonical.**  What is printed is the one numeral of the number; it is read back as
the same integer; and whatever text an integer has been read from, printing it gives that text
without the zeros that say nothing. -/
theorem toDecimal_canonical (u : UInt256) (s : String) :
    (IsNumeral u.toNat s.toList ↔ s = u.toDecimal) ∧
      ofDecimal u.toDecimal = .ok u ∧
      (ofDecimal s).map toDecimal =
        (ofDecimal s).map fun _ => String.ofList (withoutZeros s.toList) := by
  refine ⟨?_, ofDecimal_toDecimal u, ?_⟩
  · rw [isNumeral_iff, ← toList_toDecimal, String.toList_inj]
  · cases h : ofDecimal s with
    | error fault => rfl
    | ok v => exact congrArg Except.ok (toDecimal_of_ofDecimal h)

end SszRecord.UInt256

/-
Decimal text of integers.

Printing works on groups of nineteen digits and reading on single ones, both of them with words.
They are tied together by the numbers that they denote:

* `decimalDigits_eq` : what is printed are the decimal digits of the number, as of any other one;
* `readDigits_eq_ite` : reading digits gives the number that they denote, as long as it fits;
* `ofDecimal_toDecimal` : so reading undoes printing.
-/
import Mathlib
import SszRecord.Proofs.UInt256.Arithmetic
import SszRecord.UInt256.Decimal

namespace SszRecord.UInt256

/-! ### Reading -/

theorem pushDigit?_eq (u : UInt256) {d : Nat} (hd : d < 10) :
    u.pushDigit? d =
      if 10 * u.toNat + d < size then some (ofNat (10 * u.toNat + d)) else none := by
  have hword : (UInt64.ofNat d).toNat = d := by
    rw [UInt64.toNat_ofNat']
    exact Nat.mod_eq_of_lt (by omega)
  have hten : (10 : UInt64).toNat = 10 := rfl
  rw [pushDigit?, mulWord?_eq, hten, Nat.mul_comm]
  by_cases hmul : 10 * u.toNat < size
  · rw [if_pos hmul]
    show (ofNat (10 * u.toNat)).addWord? (UInt64.ofNat d) = _
    rw [addWord?_eq, hword, toNat_ofNat_of_lt hmul]
  · rw [if_neg hmul, if_neg (by omega)]
    rfl

theorem le_ofDigitChars (cs : List Char) (n : Nat) : n ≤ Nat.ofDigitChars 10 cs n := by
  induction cs generalizing n with
  | nil => exact le_rfl
  | cons c cs ih =>
    rw [Nat.ofDigitChars_cons]
    exact le_trans (by omega) (ih _)

/-- The value of a digit is below ten. -/
theorem digit_lt {c : Char} (h : c.isDigit = true) : c.toNat - '0'.toNat < 10 := by
  rw [Char.isDigit_iff_toNat] at h
  have hzero : '0'.toNat = 48 := rfl
  have hnine : '9'.toNat = 57 := rfl
  omega

/-- **Reading digits stops at the first one that makes the number too large**, or else at the first
character that is none. -/
theorem readDigits_eq_ite (u : UInt256) (cs : List Char) :
    readDigits u cs =
      if size ≤ Nat.ofDigitChars 10 (cs.takeWhile Char.isDigit) u.toNat then .error .overflow
      else if ∀ c ∈ cs, c.isDigit = true then .ok (ofNat (Nat.ofDigitChars 10 cs u.toNat))
      else .error .badDigit := by
  induction cs generalizing u with
  | nil =>
    rw [List.takeWhile_nil, Nat.ofDigitChars_nil, if_neg (not_le.2 u.toNat_lt),
      if_pos (List.forall_mem_nil _), ofNat_toNat, readDigits]
  | cons c cs ih =>
    by_cases hc : c.isDigit = true
    · rw [List.takeWhile_cons_of_pos hc, Nat.ofDigitChars_cons, Nat.ofDigitChars_cons, readDigits,
        if_pos hc, pushDigit?_eq u (digit_lt hc)]
      simp only [List.forall_mem_cons, hc, true_and]
      by_cases hstep : 10 * u.toNat + (c.toNat - '0'.toNat) < size
      · rw [if_pos hstep]
        have hrest := ih (ofNat (10 * u.toNat + (c.toNat - '0'.toNat)))
        rwa [toNat_ofNat_of_lt hstep] at hrest
      · -- what follows makes the number no smaller
        rw [if_neg hstep, if_pos (le_trans (not_lt.1 hstep) (le_ofDigitChars _ _))]
    · rw [List.takeWhile_cons_of_neg hc, Nat.ofDigitChars_nil, if_neg (not_le.2 u.toNat_lt),
        if_neg fun h => hc (h c List.mem_cons_self), readDigits, if_neg hc]

theorem readDigits_eq {cs : List Char} (digits : ∀ c ∈ cs, c.isDigit = true) {u : UInt256}
    (fits : Nat.ofDigitChars 10 cs u.toNat < size) :
    readDigits u cs = .ok (ofNat (Nat.ofDigitChars 10 cs u.toNat)) := by
  rw [readDigits_eq_ite, List.takeWhile_eq_self_iff.2 digits, if_neg (not_le.2 fits),
    if_pos digits]

/-! ### Printing -/

/-- The digits of a number below a power of ten, with zeros in front. -/
def paddedDigits (k n : Nat) : List Char :=
  List.replicate (k - (Nat.toDigits 10 n).length) '0' ++ Nat.toDigits 10 n

/-- One digit more. -/
theorem paddedDigits_succ {k n d : Nat} (hk : 0 < k) (hd : d < 10) :
    paddedDigits (k + 1) (10 * n + d) = paddedDigits k n ++ Nat.toDigits 10 d := by
  have hdigit : (Nat.toDigits 10 d).length = 1 := by rw [Nat.toDigits_of_lt_base hd]; rfl
  by_cases hn : n = 0
  · subst hn
    obtain ⟨k, rfl⟩ := Nat.exists_eq_succ_of_ne_zero hk.ne'
    rw [paddedDigits, paddedDigits, Nat.mul_zero, Nat.zero_add, hdigit, Nat.toDigits_zero]
    rw [List.length_singleton, Nat.add_sub_cancel, Nat.succ_eq_add_one, Nat.add_sub_cancel,
      ← List.replicate_succ']
  · rw [paddedDigits, paddedDigits, ← Nat.toDigits_append_toDigits (by decide) (by omega) hd,
      List.length_append, hdigit, Nat.add_sub_add_right, List.append_assoc]

theorem toDigits_mul_add {k q n : Nat} (hk : 0 < k) (hq : 0 < q) (hn : n < 10 ^ k) :
    Nat.toDigits 10 (q * 10 ^ k + n) = Nat.toDigits 10 q ++ paddedDigits k n := by
  induction k generalizing n with
  | zero => exact absurd hk (Nat.lt_irrefl 0)
  | succ k ih =>
    by_cases hzero : k = 0
    · subst hzero
      have hten : 10 ^ (0 + 1) = 10 := rfl
      rw [hten] at hn ⊢
      have hdigit : (Nat.toDigits 10 n).length = 1 := by rw [Nat.toDigits_of_lt_base hn]; rfl
      rw [paddedDigits, hdigit, Nat.mul_comm, ← Nat.toDigits_append_toDigits (by decide) hq hn]
      rfl
    · -- the last digit is written behind all others
      have hpow : 10 ^ (k + 1) = 10 * 10 ^ k := Nat.pow_succ'
      have hsplit : q * 10 ^ (k + 1) + n = 10 * (q * 10 ^ k + n / 10) + n % 10 := by
        rw [hpow, Nat.mul_left_comm, Nat.mul_add, Nat.add_assoc, Nat.div_add_mod]
      have hpos : 0 < q * 10 ^ k + n / 10 :=
        Nat.add_pos_left (Nat.mul_pos hq (Nat.pow_pos (by decide))) _
      have hrest := ih (n := n / 10) (Nat.pos_of_ne_zero hzero) (by omega)
      have hdigit : n % 10 < 10 := Nat.mod_lt n (by decide)
      have hpadded := paddedDigits_succ (n := n / 10) (Nat.pos_of_ne_zero hzero) hdigit
      rw [Nat.div_add_mod] at hpadded
      rw [hsplit, ← Nat.toDigits_append_toDigits (by decide) hpos hdigit, hrest, hpadded,
        List.append_assoc]

theorem paddedGroup_eq (n : Nat) : paddedGroup n = paddedDigits 19 n := rfl

theorem joinGroups_concat {gs : List Nat} (h : gs ≠ []) (g : Nat) :
    joinGroups (gs ++ [g]) = joinGroups gs ++ paddedGroup g := by
  obtain ⟨top, rest, rfl⟩ := List.exists_cons_of_ne_nil h
  simp [joinGroups]

theorem groups_of_zero {u : UInt256} (h : u.toNat = 0) : u.groups = [] := by
  rw [groups, dif_pos ((isZero_iff u).2 h)]

theorem groups_ne_nil {u : UInt256} (h : u.toNat ≠ 0) : u.groups ≠ [] := by
  rw [groups, dif_neg fun hzero => h ((isZero_iff u).1 hzero)]
  exact List.cons_ne_nil _ _

/-- The groups of an integer joined together are its digits. -/
theorem joinGroups_groups (u : UInt256) (h : u.toNat ≠ 0) :
    joinGroups u.groups.reverse = Nat.toDigits 10 u.toNat := by
  induction u using groups.induct with
  | case1 u hzero => exact absurd ((isZero_iff u).1 hzero) h
  | case2 u hzero ih =>
    obtain ⟨hq, hr⟩ := toNat_splitDecimal u
    have hsplit : u.toNat = u.splitDecimal.1.toNat * 10 ^ 19 + u.splitDecimal.2 := by
      rw [hq, hr, Nat.mul_comm]
      exact (Nat.div_add_mod u.toNat decimalBase).symm
    have hlt : u.splitDecimal.2 < 10 ^ 19 := by
      rw [hr]
      exact Nat.mod_lt _ (by decide)
    -- only the topmost group is written without zeros in front
    rw [groups, dif_neg hzero, List.reverse_cons, hsplit]
    by_cases hnext : u.splitDecimal.1.toNat = 0
    · rw [groups_of_zero hnext, hnext, Nat.zero_mul, Nat.zero_add]
      simp [joinGroups]
    · rw [joinGroups_concat (by simpa using groups_ne_nil hnext), ih hnext, paddedGroup_eq,
        toDigits_mul_add (by decide) (Nat.pos_of_ne_zero hnext) hlt]

/-- **The digits that are printed are the decimal digits of the number.** -/
theorem decimalDigits_eq (u : UInt256) : u.decimalDigits = Nat.toDigits 10 u.toNat := by
  rw [decimalDigits, toWord?]
  split
  · rename_i w h
    split at h
    · rename_i hzero
      obtain ⟨h1, h2, h3⟩ := hzero
      cases h
      rw [toNat, h1, h2, h3]
      rfl
    · cases h
  · rename_i h
    refine joinGroups_groups u fun hzero => ?_
    -- zero has one word
    have hword := (isZero_iff u).2 hzero
    simp only [isZero, Bool.and_eq_true, beq_iff_eq] at hword
    rw [if_pos ⟨hword.1.1.2, hword.1.2, hword.2⟩] at h
    cases h

theorem toList_toDecimal (u : UInt256) : u.toDecimal.toList = Nat.toDigits 10 u.toNat := by
  rw [toDecimal, String.toList_ofList, decimalDigits_eq]

theorem isDigit_of_mem_toDecimal {u : UInt256} {c : Char} (h : c ∈ u.toDecimal.toList) :
    c.isDigit = true := by
  rw [toList_toDecimal] at h
  exact Nat.isDigit_of_mem_toDigits (by decide) (by decide) h

/-- **Reading undoes printing.** -/
theorem ofDecimal_toDecimal (u : UInt256) : ofDecimal u.toDecimal = .ok u := by
  have hvalue : Nat.ofDigitChars 10 (Nat.toDigits 10 u.toNat) zero.toNat = u.toNat :=
    Nat.ofDigitChars_ten_toDigits
  have hread := readDigits_eq (u := zero)
    (fun c hc => Nat.isDigit_of_mem_toDigits (b := 10) (n := u.toNat) (by decide) (by decide) hc)
    (by rw [hvalue]; exact u.toNat_lt)
  rw [hvalue, ofNat_toNat] at hread
  rw [ofDecimal, toList_toDecimal]
  obtain ⟨c, cs, hcs⟩ := List.exists_cons_of_ne_nil (Nat.toDigits_ne_nil (n := u.toNat) (b := 10))
  rw [hcs] at hread ⊢
  exact hread

theorem toDecimal_injective : Function.Injective toDecimal := by
  intro u u' h
  have hread := ofDecimal_toDecimal u
  rw [h, ofDecimal_toDecimal, Except.ok.injEq] at hread
  exact hread.symm

theorem ofDecimalWidth_toDecimal {u : UInt256} {w : Nat} (h : u.FitsWidth w) :
    ofDecimalWidth w u.toDecimal = .ok u := by
  rw [ofDecimalWidth, ofDecimal_toDecimal]
  exact if_pos h

theorem fitsWidth_of_ofDecimalWidth {s : String} {w : Nat} {u : UInt256}
    (h : ofDecimalWidth w s = .ok u) : u.FitsWidth w := by
  rw [ofDecimalWidth] at h
  cases hread : ofDecimal s with
  | error fault =>
    rw [hread] at h
    cases h
  | ok v =>
    rw [hread] at h
    by_cases hv : v.FitsWidth w
    · have heq : (Except.ok v : Except DecimalFault UInt256) = .ok u := (if_pos hv).symm.trans h
      cases heq
      exact hv
    · have heq : (Except.error .overflow : Except DecimalFault UInt256) = .ok u :=
        (if_neg hv).symm.trans h
      cases heq

end SszRecord.UInt256

/-
The order of integers.

Integers are compared word by word, beginning with the word that stands in front.  That is the least
significant one, so what decides is the lowest word in which two integers differ, and not the highest
one as for numbers.

* `compare_ofWords` : numbers are compared by their words from behind;
* `compare_eq_mirrored` : integers are compared as the numbers of their words in the opposite order;
* `compare_addWord` : a sum comes behind its first term exactly if nothing is carried out of the
  lowest word;
* `order_exact` : all this, and when the order is the one of the numbers;
* `order_not_numeric` : it is not always.
-/
import Mathlib
import SszRecord.Proofs.UInt256.Arithmetic

namespace SszRecord.UInt256

/-! ### Words in order -/

/-- Numbers of two columns are compared by the high column first. -/
theorem compare_columns {base low low' : Nat} (hlow : low < base) (hlow' : low' < base)
    (high high' : Nat) :
    compare (low + base * high) (low' + base * high') =
      (compare high high').then (compare low low') := by
  rcases Nat.lt_trichotomy high high' with h | rfl | h
  · have hcolumn : base * (high + 1) ≤ base * high' := Nat.mul_le_mul_left base h
    rw [Nat.mul_succ] at hcolumn
    rw [Nat.compare_eq_lt.2 h, Ordering.lt_then, Nat.compare_eq_lt]
    omega
  · rw [Nat.compare_eq_eq.2 rfl, Ordering.eq_then]
    rcases Nat.lt_trichotomy low low' with h | rfl | h
    · rw [Nat.compare_eq_lt.2 h, Nat.compare_eq_lt]
      omega
    · rw [Nat.compare_eq_eq.2 rfl, Nat.compare_eq_eq.2 rfl]
    · rw [Nat.compare_eq_gt.2 h, Nat.compare_eq_gt]
      omega
  · have hcolumn : base * (high' + 1) ≤ base * high := Nat.mul_le_mul_left base h
    rw [Nat.mul_succ] at hcolumn
    rw [Nat.compare_eq_gt.2 h, Ordering.gt_then, Nat.compare_eq_gt]
    omega

/-- The last items of lists of one length are compared last. -/
theorem compare_concat {xs ys : List UInt64} (length : xs.length = ys.length) (x y : UInt64) :
    compare (xs ++ [x]) (ys ++ [y]) = (compare xs ys).then (compare x y) := by
  induction xs generalizing ys with
  | nil =>
    rw [List.eq_nil_of_length_eq_zero length.symm, List.nil_append, List.nil_append,
      List.compare_cons_cons]
    exact Ordering.then_eq
  | cons x' xs ih =>
    obtain ⟨y', ys, rfl⟩ := List.exists_cons_of_length_eq_add_one length.symm
    rw [List.cons_append, List.cons_append, List.compare_cons_cons, List.compare_cons_cons,
      ih (Nat.succ.inj length), Ordering.then_assoc]

/-- **Numbers are compared by their words from behind.** -/
theorem compare_ofWords {xs ys : List UInt64} (length : xs.length = ys.length) :
    compare (ofWords xs) (ofWords ys) = compare xs.reverse ys.reverse := by
  induction xs generalizing ys with
  | nil =>
    rw [List.eq_nil_of_length_eq_zero length.symm]
    rfl
  | cons x xs ih =>
    obtain ⟨y, ys, rfl⟩ := List.exists_cons_of_length_eq_add_one length.symm
    have hrest := Nat.succ.inj length
    rw [ofWords, ofWords, compare_columns x.toNat_lt y.toNat_lt, ih hrest,
      ← UInt64.compare_eq_toNat_compare_toNat, List.reverse_cons, List.reverse_cons,
      compare_concat (by rw [List.length_reverse, List.length_reverse, hrest])]

/-- What decides between lists of one length is the first place where they differ. -/
theorem compare_eq_find? {xs ys : List UInt64} (length : xs.length = ys.length) :
    compare xs ys = ((List.zipWith compare xs ys).find? (· != .eq)).getD .eq := by
  induction xs generalizing ys with
  | nil =>
    rw [List.eq_nil_of_length_eq_zero length.symm]
    rfl
  | cons x xs ih =>
    obtain ⟨y, ys, rfl⟩ := List.exists_cons_of_length_eq_add_one length.symm
    rw [List.compare_cons_cons, ih (Nat.succ.inj length), List.zipWith_cons_cons, List.find?_cons]
    cases compare x y <;> rfl

/-! ### Integers in order -/

theorem length_words (a b : UInt256) : a.words.length = b.words.length := rfl

/-- Integers are compared as the lists of their words. -/
theorem compare_eq_compare_words (a b : UInt256) : compare a b = compare a.words b.words := by
  simp only [words, List.compare_cons_cons, List.compare_nil_nil, Ordering.then_eq]
  rfl

theorem compare_toNat (a b : UInt256) :
    compare a.toNat b.toNat = compare a.words.reverse b.words.reverse :=
  compare_ofWords (length_words a b)

/-- The integer with the words of an integer in the opposite order. -/
def mirrored (u : UInt256) : UInt256 := ⟨u.w3, u.w2, u.w1, u.w0⟩

theorem compare_eq_mirrored (a b : UInt256) :
    compare a b = compare a.mirrored.toNat b.mirrored.toNat := by
  rw [compare_toNat, compare_eq_compare_words]
  rfl

/-- How the words of two integers compare, the least significant in front. -/
def wordOrders (a b : UInt256) : List Ordering := List.zipWith compare a.words b.words

/-- How the lowest words that are different compare. -/
def lowestDifference (a b : UInt256) : Option Ordering := (wordOrders a b).find? (· != .eq)

/-- How the highest words that are different compare. -/
def highestDifference (a b : UInt256) : Option Ordering :=
  (wordOrders a b).reverse.find? (· != .eq)

theorem compare_eq_lowestDifference (a b : UInt256) :
    compare a b = (lowestDifference a b).getD .eq := by
  rw [compare_eq_compare_words, compare_eq_find? (length_words a b)]
  rfl

theorem compare_toNat_eq_highestDifference (a b : UInt256) :
    compare a.toNat b.toNat = (highestDifference a b).getD .eq := by
  have hlen : a.words.reverse.length = b.words.reverse.length := rfl
  rw [compare_toNat, compare_eq_find? hlen, ← List.reverse_zipWith (length_words a b)]
  rfl

/-- What has been found as a difference is none of equal words. -/
theorem find?_ne_some_eq (os : List Ordering) : os.find? (· != .eq) ≠ some .eq := by
  intro h
  have hne := List.find?_some h
  cases hne

theorem getD_eq_inj {o o' : Option Ordering} (ho : o ≠ some .eq) (ho' : o' ≠ some .eq) :
    o.getD .eq = o'.getD .eq ↔ o = o' := by
  cases o with
  | none => cases o' <;> simp_all [eq_comm]
  | some o => cases o' <;> simp_all

/-- The order is the one of the numbers exactly if the lowest difference and the highest one are the
same. -/
theorem compare_eq_compare_toNat_iff (a b : UInt256) :
    compare a b = compare a.toNat b.toNat ↔ lowestDifference a b = highestDifference a b := by
  rw [compare_eq_lowestDifference, compare_toNat_eq_highestDifference]
  exact getD_eq_inj (find?_ne_some_eq _) (find?_ne_some_eq _)

/-! ### Sums in order -/

theorem compare_self (u : UInt256) : compare u u = .eq := by
  rw [compare_eq_mirrored, Nat.compare_eq_eq]

/-- A sum comes behind its first term exactly if nothing is carried out of the lowest word. -/
theorem compare_addWord (u : UInt256) {k : UInt64} (fits : u.toNat + k.toNat < size) :
    ∃ v, u.addWord? k = some v ∧ v.toNat = u.toNat + k.toNat ∧
      ((compare u v).isLE = true ↔ u.w0.toNat + k.toNat < UInt64.size) := by
  refine ⟨ofNat (u.toNat + k.toNat), ?_, toNat_ofNat_of_lt fits, ?_⟩
  · rw [addWord?_eq, if_pos fits]
  · have hu := u.w0.toNat_lt
    have hk := k.toNat_lt
    have hlowest : (ofNat (u.toNat + k.toNat)).w0.toNat =
        (u.w0.toNat + k.toNat) % UInt64.size := by
      simp only [ofNat, UInt64.toNat_ofNat', toNat, UInt64.size]
      omega
    have hcompare : compare u (ofNat (u.toNat + k.toNat)) =
        (compare u.w0.toNat ((u.w0.toNat + k.toNat) % UInt64.size)).then
          (compare [u.w1, u.w2, u.w3] (ofNat (u.toNat + k.toNat)).words.tail) := by
      rw [compare_eq_compare_words, ← hlowest, ← UInt64.compare_eq_toNat_compare_toNat]
      exact List.compare_cons_cons
    by_cases hcarry : u.w0.toNat + k.toNat < UInt64.size
    · -- without a carry the lowest word grows, unless nothing was added
      rw [iff_true_right hcarry]
      rcases Nat.eq_zero_or_pos k.toNat with hzero | hpos
      · rw [hzero, Nat.add_zero, ofNat_toNat, compare_self]
        rfl
      · rw [hcompare, Nat.mod_eq_of_lt hcarry, Nat.compare_eq_lt.2 (by omega)]
        rfl
    · -- with one it falls, whatever the higher words do
      rw [iff_false_right hcarry, hcompare, Nat.compare_eq_gt.2 (by
        simp only [UInt64.size] at hcarry ⊢
        omega)]
      exact Bool.false_ne_true

/-- **The order is that of the words from the lowest up.**  It compares the numbers that the words
give in the opposite order; it is the order of the integers' own numbers exactly if the lowest and
the highest words in which they differ compare alike; and a sum that fits comes behind its first
term exactly if nothing is carried out of the lowest word. -/
theorem order_exact (a b : UInt256) (k : UInt64) :
    compare a b = compare a.mirrored.toNat b.mirrored.toNat ∧
      (compare a b = compare a.toNat b.toNat ↔ lowestDifference a b = highestDifference a b) ∧
      (size ≤ a.toNat + k.toNat ∨ ∃ v, a.addWord? k = some v ∧ v.toNat = a.toNat + k.toNat ∧
        ((compare a v).isLE = true ↔ a.w0.toNat + k.toNat < UInt64.size)) := by
  refine ⟨compare_eq_mirrored a b, compare_eq_compare_toNat_iff a b, ?_⟩
  rcases Nat.lt_or_ge (a.toNat + k.toNat) size with hfits | hlarge
  · exact Or.inr (compare_addWord a hfits)
  · exact Or.inl hlarge

/-- **The order is not numeric.**  `2 ^ 64` comes before 1, and adding 1 to the greatest word gives
an integer that comes before it. -/
theorem order_not_numeric :
    compare (ofNat (UInt64.size)) (ofNat 1) = .lt ∧
      compare (ofNat (UInt64.size)).toNat (ofNat 1).toNat = .gt ∧
      (ofNat (UInt64.size - 1)).addWord? 1 = some (ofNat UInt64.size) ∧
      compare (ofNat (UInt64.size - 1)) (ofNat UInt64.size) = .gt := by
  decide

end SszRecord.UInt256

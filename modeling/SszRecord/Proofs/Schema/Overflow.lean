/-
Sizes in machine words.

A size is a product or a sum of numbers that a schema declares.  Validation looks at these numbers
one by one, so that sizes are not empty, but it does not bound them: the sizes of an accepted schema
may be too large for a machine word.  What a calculation in words then gives depends on what an
overflow does, and is said for both ways.

* `Kind.sizesIn` : the sizes of a kind, calculated in an arithmetic;
* `Kind.sizesIn_eq` : an arithmetic that is right as far as it reaches gives the right sizes, and
  breaks off only where one of them is out of its reach;
* `Schema.Sized` : the schemas with sizes that are words;
* `Schema.sizes_exact` : what words give for the sizes of an accepted schema;
* `Schema.sizes_overflow` : an accepted schema with items of `2 ^ 64` bytes.
-/
import Mathlib
import SszRecord.Proofs.Schema.Sizes
import SszRecord.Proofs.Schema.Within
import SszRecord.Schema.Arithmetic

namespace SszRecord

/-! ### Arithmetics -/

namespace Arithmetic

/-- The word of a number that fits one. -/
def word? (n : Nat) : Option UInt64 := if n < UInt64.size then some (UInt64.ofNat n) else none

theorem word?_eq_some {n : Nat} {a : UInt64} :
    word? n = some a ↔ n < UInt64.size ∧ UInt64.ofNat n = a := by
  rw [word?]
  split <;> simp_all

theorem word?_eq_none {n : Nat} : word? n = none ↔ UInt64.size ≤ n := by
  rw [word?]
  split <;> simp_all

/-- What an arithmetic makes of numbers: it has their forms as far as it reaches, and breaks off
behind. -/
structure Calculates {α : Type} (arith : Arithmetic α) (form : Nat → Option α) : Prop where
  ofNat : ∀ {n a}, form n = some a → arith.ofNat n = a
  add : ∀ {m n a b}, form m = some a → form n = some b → arith.add a b = form (m + n)
  mul : ∀ {m n a b}, form m = some a → form n = some b → arith.mul a b = form (m * n)
  mono : ∀ {m n}, m ≤ n → form m = none → form n = none

theorem exact_calculates : exact.Calculates some where
  ofNat h := Option.some_inj.1 h
  add := by
    rintro m n _ _ ⟨⟩ ⟨⟩
    rfl
  mul := by
    rintro m n _ _ ⟨⟩ ⟨⟩
    rfl
  mono _ h := absurd h (Option.some_ne_none _)

theorem wrapping_calculates : wrapping.Calculates fun n => some (UInt64.ofNat n) where
  ofNat h := Option.some_inj.1 h
  add := by
    rintro m n _ _ ⟨⟩ ⟨⟩
    rw [wrapping, UInt64.ofNat_add]
  mul := by
    rintro m n _ _ ⟨⟩ ⟨⟩
    rw [wrapping, UInt64.ofNat_mul]
  mono _ h := absurd h (Option.some_ne_none _)

theorem checked_calculates : checked.Calculates word? where
  ofNat h := (word?_eq_some.1 h).2
  add := by
    intro m n a b hm hn
    obtain ⟨hlt, rfl⟩ := word?_eq_some.1 hm
    obtain ⟨hlt', rfl⟩ := word?_eq_some.1 hn
    simp only [word?, checked, UInt64.toNat_ofNat_of_lt' hlt, UInt64.toNat_ofNat_of_lt' hlt',
      UInt64.ofNat_add]
  mul := by
    intro m n a b hm hn
    obtain ⟨hlt, rfl⟩ := word?_eq_some.1 hm
    obtain ⟨hlt', rfl⟩ := word?_eq_some.1 hn
    simp only [word?, checked, UInt64.toNat_ofNat_of_lt' hlt, UInt64.toNat_ofNat_of_lt' hlt',
      UInt64.ofNat_mul]
  mono h hm := word?_eq_none.2 (le_trans (word?_eq_none.1 hm) h)

end Arithmetic

namespace Kind

/-! ### Calculations -/

section Calculation

variable {α : Type} (arith : Arithmetic α)

/-- The size of the inline part of the region of a vector or a container. -/
def partSize? : Kind → Option Nat
  | .vector item n => some (item.inlineSize * n)
  | .container _ fields => some (fixedPartSize fields)
  | _ => none

/-- The same, calculated in an arithmetic. -/
def partSizeIn : Kind → Option (Option α)
  | .vector item n => do
    let slot ← (sizeIn arith item).map (slotIn arith)
    (arith.mul slot (arith.ofNat n)).map some
  | .container _ fields => (addSlots arith (arith.ofNat 0) fields).map some
  | _ => some none

/-- The sizes of a kind: its fixed size, what it takes in the region around it, and the inline part
of its own region. -/
def sizes (k : Kind) : List Nat := k.fixedSize?.toList ++ k.inlineSize :: k.partSize?.toList

/-- The same, calculated in an arithmetic. -/
def sizesIn (k : Kind) : Option (List α) := do
  let size ← sizeIn arith k
  let part ← partSizeIn arith k
  return size.toList ++ slotIn arith size :: part.toList

end Calculation

theorem fixedSize_mem_sizes {k : Kind} {n : Nat} (h : k.fixedSize? = some n) : n ∈ k.sizes :=
  List.mem_append_left _ (Option.mem_toList.2 h)

theorem partSize_mem_sizes {k : Kind} {n : Nat} (h : k.partSize? = some n) : n ∈ k.sizes :=
  List.mem_append_right _ (List.mem_cons_of_mem _ (Option.mem_toList.2 h))

/-- A calculation is right if it goes on rightly and the right answer is none where it breaks off. -/
theorem bind_eq_of_form {α β : Type} {x : Option α} {f : α → Option β} {answer : Option β}
    (broken : x = none → answer = none) (goesOn : ∀ a, x = some a → f a = answer) :
    (x >>= f) = answer := by
  cases x with
  | none => exact (broken rfl).symm
  | some a => exact goesOn a rfl

section Exact

variable {α : Type} {arith : Arithmetic α} {form : Nat → Option α}
  (exact : arith.Calculates form) (slot : form offsetSize ≠ none)

include exact

theorem form_ofNat {n : Nat} (h : form n ≠ none) : form n = some (arith.ofNat n) := by
  obtain ⟨a, ha⟩ := Option.ne_none_iff_exists'.1 h
  rw [exact.ofNat ha, ha]

/-- A product with a number that is not zero is not smaller than the other factor, so a calculation
that breaks off at this one is right not to give the product. -/
theorem mul_form {m n : Nat} (pos : 0 < n) (reached : form n ≠ none) :
    (do arith.mul (← form m) (arith.ofNat n)) = form (m * n) := by
  have hgrows : m ≤ m * n := Nat.le_mul_of_pos_right m pos
  refine bind_eq_of_form (exact.mono hgrows) fun a ha => ?_
  exact exact.mul ha (form_ofNat exact reached)

include slot

theorem map_slotIn (size? : Option Nat) :
    (size?.mapM form).map (slotIn arith) = form (size?.getD offsetSize) := by
  cases size? with
  | none =>
    rw [Option.getD_none, form_ofNat exact slot]
    rfl
  | some n =>
    rw [Option.mapM_some, Option.getD_some]
    cases form n <;> rfl

theorem addSlots_eq {fields : List (Field Kind)}
    (each : ∀ f ∈ fields, sizeIn arith f.kind = f.kind.fixedSize?.mapM form) {m : Nat} {sum : α}
    (hsum : form m = some sum) :
    addSlots arith sum fields = form (m + fixedPartSize fields) := by
  induction fields generalizing m sum with
  | nil => rw [addSlots, fixedPartSize, Nat.add_zero, hsum]
  | cons f fields ih =>
    obtain ⟨hf, hfields⟩ := List.forall_mem_cons.1 each
    rw [addSlots, hf, map_slotIn exact slot, fixedPartSize]
    refine bind_eq_of_form (exact.mono (by omega)) fun inline hinline => ?_
    rw [exact.add hsum hinline]
    refine bind_eq_of_form (exact.mono (by omega)) fun sum' hsum' => ?_
    rw [ih hfields hsum', Nat.add_assoc]

/-- The sum of the slots of fields, from the beginning. -/
theorem addSlots_zero {fields : List (Field Kind)}
    (each : ∀ f ∈ fields, sizeIn arith f.kind = f.kind.fixedSize?.mapM form) :
    addSlots arith (arith.ofNat 0) fields = form (fixedPartSize fields) := by
  have hzero : form 0 ≠ none := fun h => slot (exact.mono (Nat.zero_le _) h)
  rw [addSlots_eq exact slot each (form_ofNat exact hzero), Nat.zero_add]

variable {k : Kind} (sound : k.Sound) (reached : ∀ k' ∈ k.within, form k'.bound ≠ none)

include sound reached

/-- **Sizes are right as far as the arithmetic reaches.**  No number on the way is larger than the
size, since no vector of a sound kind is empty. -/
theorem sizeIn_eq : sizeIn arith k = k.fixedSize?.mapM form := by
  induction sound with
  | @bytes n pos =>
    have hn : form n = some (arith.ofNat n) := form_ofNat exact (reached _ (self_mem_within _))
    rw [sizeIn, fixedSize?, Option.mapM_some, hn]
    rfl
  | @uint w width =>
    have hw : form w = some (arith.ofNat w) := form_ofNat exact (reached _ (self_mem_within _))
    rw [sizeIn, fixedSize?, Option.mapM_some, hw]
    rfl
  | byteList => rfl
  | list => rfl
  | @vector item n pos each ih =>
    obtain ⟨hn, hitem⟩ := forall_within_vector.1 reached
    rw [sizeIn, ih hitem, fixedSize?]
    cases item.fixedSize? with
    | none => rfl
    | some size =>
      rw [Option.mapM_some, Option.map_some, Option.mapM_some, ← mul_form exact pos hn]
      cases form size <;> rfl
  | @container name fields nonempty each ih =>
    obtain ⟨-, hfields⟩ := forall_within_container.1 reached
    rw [sizeIn, fixedSize?]
    split
    · rw [addSlots_zero exact slot fun f hf => ih f hf (hfields f hf), Option.mapM_some]
      rfl
    · rfl

theorem partSizeIn_eq : partSizeIn arith k = k.partSize?.mapM form := by
  cases sound with
  | bytes pos => rfl
  | uint width => rfl
  | byteList => rfl
  | list each => rfl
  | @vector item n pos each =>
    obtain ⟨hn, hitem⟩ := forall_within_vector.1 reached
    rw [partSizeIn, sizeIn_eq exact slot each hitem, map_slotIn exact slot, partSize?,
      Option.mapM_some, inlineSize, ← mul_form exact pos hn]
    cases form (item.fixedSize?.getD offsetSize) <;> rfl
  | @container name fields nonempty each =>
    obtain ⟨-, hfields⟩ := forall_within_container.1 reached
    rw [partSizeIn, addSlots_zero exact slot fun f hf =>
      sizeIn_eq exact slot (each f hf) (hfields f hf)]
    rfl

theorem sizesIn_eq : sizesIn arith k = k.sizes.mapM form := by
  have hlist (size? : Option Nat) :
      size?.toList.mapM form = (size?.mapM form).map Option.toList := by
    cases size? with
    | none => rfl
    | some size =>
      rw [Option.mapM_some, Option.toList_some, List.mapM_cons, List.mapM_nil]
      cases form size <;> rfl
  rw [sizesIn, sizeIn_eq exact slot sound reached, partSizeIn_eq exact slot sound reached, sizes,
    List.mapM_append, List.mapM_cons, hlist, hlist, inlineSize, ← map_slotIn exact slot]
  cases k.fixedSize?.mapM form with
  | none => rfl
  | some size? => cases k.partSize?.mapM form <;> rfl

end Exact

/-! ### Words -/

theorem mapM_wrapping (ns : List Nat) :
    (ns.mapM fun n => some (UInt64.ofNat n)) = some (ns.map UInt64.ofNat) := by
  induction ns with
  | nil => rfl
  | cons n ns ih =>
    rw [List.mapM_cons, ih]
    rfl

theorem mapM_word? (ns : List Nat) :
    ns.mapM Arithmetic.word? =
      if ∀ n ∈ ns, n < UInt64.size then some (ns.map UInt64.ofNat) else none := by
  induction ns with
  | nil => rfl
  | cons n ns ih =>
    rw [List.mapM_cons, ih, List.map_cons, Arithmetic.word?]
    simp only [List.forall_mem_cons]
    split <;> split <;> simp_all

/-- A word that has wrapped around is zero for the multiples of its range. -/
theorem word_eq_zero_iff {n : Nat} : UInt64.ofNat n = 0 ↔ UInt64.size ∣ n := by
  rw [← UInt64.toNat_inj, UInt64.toNat_ofNat', UInt64.toNat_zero]
  exact (Nat.dvd_iff_mod_eq_zero ..).symm

/-! ### Accepted schemas -/

/-- What holds of all kinds inside a kind holds of all kinds inside one of them. -/
theorem forall_within_inside {p : Kind → Prop} {k inner : Kind} (h : ∀ k' ∈ k.within, p k')
    (inside : inner ∈ k.within) : ∀ k' ∈ inner.within, p k' := by
  induction k with
  | bytes n | uint w | byteList max =>
    rw [within, List.mem_singleton] at inside
    rwa [inside]
  | vector item n ih =>
    rw [within, List.mem_cons] at inside
    obtain rfl | inside := inside
    · exact h
    · exact ih (forall_within_vector.1 h).2 inside
  | list item max ih =>
    rw [within, List.mem_cons] at inside
    obtain rfl | inside := inside
    · exact h
    · exact ih (forall_within_list.1 h).2 inside
  | container name fields ih =>
    rw [within, List.mem_cons, mem_withinFields] at inside
    obtain rfl | ⟨f, hf, inside⟩ := inside
    · exact h
    · exact ih f hf ((forall_within_container.1 h).2 f hf) inside

theorem Sound.of_mem_within {k inner : Kind} (sound : k.Sound) (inside : inner ∈ k.within) :
    inner.Sound := by
  have each : ∀ k' ∈ k.within, k'.Sound := by
    clear inside
    induction sound with
    | bytes pos => simpa [within] using Sound.bytes pos
    | uint width => simpa [within] using Sound.uint width
    | byteList => simpa [within] using Sound.byteList
    | vector pos each ih => exact forall_within_vector.2 ⟨.vector pos each, ih⟩
    | list each ih => exact forall_within_list.2 ⟨.list each, ih⟩
    | container nonempty each ih =>
      exact forall_within_container.2 ⟨.container nonempty each, ih⟩
  exact each inner inside

theorem Sound.inlineSize_pos {k : Kind} (sound : k.Sound) : 0 < k.inlineSize := by
  rw [inlineSize]
  cases hsize : k.fixedSize? with
  | none => decide
  | some size => exact sound.fixedSize_pos hsize

/-- No size of a sound kind is zero. -/
theorem Sound.sizes_pos {k : Kind} (sound : k.Sound) : ∀ n ∈ k.sizes, 0 < n := by
  intro n hn
  rw [sizes, List.mem_append, List.mem_cons, Option.mem_toList, Option.mem_toList] at hn
  obtain hsize | rfl | hpart := hn
  · exact sound.fixedSize_pos hsize
  · exact sound.inlineSize_pos
  · cases sound with
    | bytes pos => cases hpart
    | uint width => cases hpart
    | byteList => cases hpart
    | list each => cases hpart
    | vector pos each =>
      cases hpart
      exact Nat.mul_pos each.inlineSize_pos pos
    | container nonempty each =>
      cases hpart
      obtain ⟨f, rest, rfl⟩ := List.exists_cons_of_ne_nil nonempty
      have hf := (each f List.mem_cons_self).inlineSize_pos
      rw [fixedPartSize, ← inlineSize]
      omega

end Kind

namespace Schema

/-- The sizes of a schema are words, and so are the numbers that it declares.  What is said of
`Schema.decode` is said of exact sizes; for these schemas it is said of words as well. -/
def Sized (s : Schema) : Prop :=
  ∀ k ∈ s.kind.within, k.bound < UInt64.size ∧ ∀ n ∈ k.sizes, n < UInt64.size

instance (s : Schema) : Decidable s.Sized :=
  inferInstanceAs (Decidable (∀ k ∈ s.kind.within, _ ∧ ∀ n ∈ k.sizes, _))

/-- **What words give for sizes.**  Let the numbers that an accepted schema declares be words.  Then
no size of a kind in it is zero; words that wrap around give what the sizes leave modulo `2 ^ 64`,
which is zero for the multiples of it; and words that are checked give the sizes, and break off
exactly if one of them is no word. -/
theorem sizes_exact {s : Schema} (valid : s.Valid)
    (words : ∀ k ∈ s.kind.within, k.bound < UInt64.size) {k : Kind}
    (inside : k ∈ s.kind.within) :
    (∀ n ∈ k.sizes, 0 < n ∧ (UInt64.ofNat n = 0 ↔ UInt64.size ∣ n)) ∧
      k.sizesIn .wrapping = some (k.sizes.map UInt64.ofNat) ∧
      k.sizesIn .checked =
        if ∀ n ∈ k.sizes, n < UInt64.size then some (k.sizes.map UInt64.ofNat) else none := by
  have sound := (valid_iff.1 valid).of_mem_within inside
  have hwords : ∀ k' ∈ k.within, Arithmetic.word? k'.bound ≠ none := by
    intro k' hk' h
    have hlt := Kind.forall_within_inside words inside k' hk'
    exact absurd (Arithmetic.word?_eq_none.1 h) (not_le.2 hlt)
  refine ⟨fun n hn => ⟨sound.sizes_pos n hn, Kind.word_eq_zero_iff⟩, ?_, ?_⟩
  · rw [← Kind.mapM_wrapping]
    exact Kind.sizesIn_eq Arithmetic.wrapping_calculates (Option.some_ne_none _) sound
      fun _ _ => Option.some_ne_none _
  · rw [← Kind.mapM_word?]
    exact Kind.sizesIn_eq Arithmetic.checked_calculates (by decide) sound hwords

/-- A board of `2 ^ 32` rows with `2 ^ 32` bytes each. -/
def board : Kind := .vector (.vector (.uint 1) 4294967296) 4294967296

/-- A list of at most one board. -/
def boards : Schema := ⟨"Boards", [⟨"boards", .list board 1, .reject⟩]⟩

theorem within_boards : boards.kind.within =
    [boards.kind, .list board 1, board, .vector (.uint 1) 4294967296, .uint 1] := rfl

theorem bound_boards : ∀ k ∈ boards.kind.within, k.bound < UInt64.size := by
  rw [within_boards]
  decide

theorem board_mem_within : board ∈ boards.kind.within := by
  rw [within_boards]
  exact List.mem_of_getElem? (i := 2) rfl

/-- The sizes of a board are all the same, and none of them is a word. -/
theorem sizes_exact_board :
    boards.Valid ∧ (∀ k ∈ boards.kind.within, k.bound < UInt64.size) ∧
      board ∈ boards.kind.within ∧
      (∀ n ∈ board.sizes, 0 < n ∧ (UInt64.ofNat n = 0 ↔ UInt64.size ∣ n)) ∧
      board.sizesIn .wrapping = some [0, 0, 0] ∧ board.sizesIn .checked = none := by
  have valid : boards.Valid := rfl
  obtain ⟨hpos, hwrapping, hchecked⟩ := sizes_exact valid bound_boards board_mem_within
  have hsizes : board.sizes = [UInt64.size, UInt64.size, UInt64.size] := rfl
  refine ⟨valid, bound_boards, board_mem_within, hpos, ?_, ?_⟩
  · rw [hwrapping, hsizes]
    rfl
  · rw [hchecked, hsizes]
    decide

/-- **Sizes overflow.**  The schema of boards is accepted, and every number that it declares is a
word; but a board has `2 ^ 64` bytes, which makes zero in words that wrap around and does not exist in
words that are checked. -/
theorem sizes_overflow :
    boards.Valid ∧ (∀ k ∈ boards.kind.within, k.bound < UInt64.size) ∧
      board ∈ boards.kind.within ∧ board.fixedSize? = some UInt64.size ∧
      board.sizeIn .wrapping = some (some 0) ∧ board.sizeIn .checked = none :=
  ⟨rfl, bound_boards, board_mem_within, rfl, rfl, rfl⟩

end Schema

end SszRecord

/-
Decoding in words.

What is known of decoding is known of sizes that are exact.  It holds of words as well if all sizes
are words, and with words that are checked nothing wrong is ever decoded.  With words that wrap
around it fails for accepted schemas: a vector that has wrapped around to one byte is decoded from
any byte, without any of its items, and no region is divided into items that have wrapped around
to none.

* `Schema.encode_of_decodeOn` : the wire format is canonical in words;
* `Schema.tapes_not_canonical` : it is not where sizes wrap around;
* `Schema.levels_agree_in_words` : in words, decoding and hashing count levels alike;
* `Schema.levels_differ_in_words` : they do not where sizes wrap around.
-/
import Mathlib
import SszRecord.Proofs.Limits

namespace SszRecord.Schema

variable {s : Schema} {m : Nat}

theorem decode_of_decodeOn_checked (words : ∀ k ∈ s.kind.within, k.bound < UInt64.size)
    {data : Bytes} {r : Record} (h : (s.decodeOn .checked m data).run = some (.ok r)) :
    s.decode m data = .ok r := by
  obtain hrun | hbroken := decodeOn_checked words m data
  · rw [hrun] at h
    exact Option.some.inj h
  · rw [hbroken] at h
    cases h

theorem decode_of_decodeOn_wrapping (sized : s.Sized) {data : Bytes} {r : Record}
    (h : (s.decodeOn .wrapping m data).run = some (.ok r)) : s.decode m data = .ok r := by
  rw [(decodeOn_of_sized sized m data).1] at h
  exact Option.some.inj h

/-- The wire format is canonical on a machine that never decodes anything wrong. -/
theorem canonical_of_decode {α : Type} {M : Machine α} {r : Record}
    (right : ∀ {m data}, (s.decodeOn M m data).run = some (.ok r) → s.decode m data = .ok r)
    {data : Bytes} (h : (s.decodeOn M m data).run = some (.ok r)) :
    s.Conforms r ∧ s.encode r = .ok data ∧
      ∀ m' data', (s.decodeOn M m' data').run = some (.ok r) → data' = data := by
  obtain ⟨conforms, hencode, unique⟩ := encode_of_decode (right h)
  exact ⟨conforms, hencode, fun m' data' h' => unique m' data' (right h')⟩

/-- **The wire format is canonical in words.**  Whatever is decoded fits the schema and is encoded as
the bytes it was read from, so that no other bytes are decoded as the same record.  Words that are
checked need no more for this than a schema that declares words; words that wrap around need sizes
that are words. -/
theorem encode_of_decodeOn (words : ∀ k ∈ s.kind.within, k.bound < UInt64.size) {data : Bytes}
    {r : Record} :
    ((s.decodeOn .checked m data).run = some (.ok r) →
      s.Conforms r ∧ s.encode r = .ok data ∧
        ∀ m' data', (s.decodeOn .checked m' data').run = some (.ok r) → data' = data) ∧
    (s.Sized → (s.decodeOn .wrapping m data).run = some (.ok r) →
      s.Conforms r ∧ s.encode r = .ok data ∧
        ∀ m' data', (s.decodeOn .wrapping m' data').run = some (.ok r) → data' = data) := by
  constructor
  · exact canonical_of_decode (decode_of_decodeOn_checked words)
  · intro sized
    exact canonical_of_decode (decode_of_decodeOn_wrapping sized)

theorem encode_of_decodeOn_lists :
    let s : Schema := ⟨"Log", [⟨"lines", .list (.byteList 3) 4, .reject⟩,
      ⟨"size", .uint 2, .reject⟩]⟩
    let r : Record := [.list [.bytes [1, 2], .bytes []], .uint (UInt256.ofNat 300)]
    let data : Bytes := [6, 0, 0, 0, 44, 1, 8, 0, 0, 0, 10, 0, 0, 0, 1, 2]
    (∀ k ∈ s.kind.within, k.bound < UInt64.size) ∧ s.Sized ∧
      (s.decodeOn .checked 1 data).run = some (.ok r) ∧
      (s.decodeOn .wrapping 1 data).run = some (.ok r) ∧
      s.Conforms r ∧ s.encode r = .ok data ∧
      ∀ m' data', (s.decodeOn .wrapping m' data').run = some (.ok r) → data' = data := by
  intro s r data
  have words : ∀ k ∈ s.kind.within, k.bound < UInt64.size := by
    unfold s
    decide
  have sized : s.Sized := by
    unfold s
    decide
  have hchecked : (s.decodeOn .checked 1 data).run = some (.ok r) := by
    unfold s r data
    rfl
  have hwrapping : (s.decodeOn .wrapping 1 data).run = some (.ok r) := by
    unfold s r data
    rfl
  obtain ⟨conforms, hencode, -⟩ := (encode_of_decodeOn words).1 hchecked
  obtain ⟨-, -, unique⟩ := (encode_of_decodeOn words).2 sized hwrapping
  exact ⟨words, sized, hchecked, hwrapping, conforms, hencode, unique⟩

/-- A vector of three byte strings that together have `2 ^ 65 + 1` bytes. -/
def tapes : Schema := ⟨"Tapes", [⟨"tapes", .vector (.bytes 12297829382473034411) 3, .reject⟩]⟩

theorem bound_tapes : ∀ k ∈ tapes.kind.within, k.bound < UInt64.size := by decide

theorem decodeOn_tapes : (tapes.decodeOn .wrapping 1 [7]).run = some (.ok [.vector []]) := by rfl

theorem check_tapes : tapes.check [.vector []] =
    .error (.mismatch (.value (some ⟨"Tapes", "tapes", []⟩) (.itemCount 3 0))) := rfl

/-- **Sizes that wrap around let bytes through.**  Three tapes count as one byte, and one tape is
longer than that, so that any byte is decoded as a vector without items.  This does not fit and has
no encoding, and it comes from different bytes. -/
theorem tapes_not_canonical :
    tapes.Valid ∧ (∀ k ∈ tapes.kind.within, k.bound < UInt64.size) ∧
      (tapes.decodeOn .wrapping 1 [7]).run = some (.ok [.vector []]) ∧
      (tapes.decodeOn .wrapping 1 [8]).run = some (.ok [.vector []]) ∧
      ¬tapes.Conforms [.vector []] ∧ ∀ data, tapes.encode [.vector []] ≠ .ok data := by
  have refused : ¬tapes.Conforms [.vector []] := by
    rw [Conforms, check_tapes]
    intro h
    cases h
  refine ⟨rfl, bound_tapes, decodeOn_tapes, by rfl, refused, fun data h => ?_⟩
  exact refused (encode_eq_ok.1 h).1.2

/-! ### Levels -/

/-- **In words, decoding and hashing count levels alike.**  What checked words decode under a limit
has a root under the same limit.  If the sizes are words, then this holds of words that wrap around
as well, and both decode whatever has a root and an encoding. -/
theorem levels_agree_in_words (valid : s.Valid)
    (packed : ∀ k ∈ s.kind.within, k.packedSize ≤ maxSize)
    (words : ∀ k ∈ s.kind.within, k.bound < UInt64.size) :
    (∀ data r, (s.decodeOn .checked m data).run = some (.ok r) → ∃ a, s.root m r = .ok a) ∧
    (s.Sized →
      (∀ data r, (s.decodeOn .wrapping m data).run = some (.ok r) → ∃ a, s.root m r = .ok a) ∧
      ∀ r data, (∃ a, s.root m r = .ok a) → s.encode r = .ok data →
        (s.decodeOn .wrapping m data).run = some (.ok r) ∧
          (s.decodeOn .checked m data).run = some (.ok r)) := by
  obtain ⟨hroot, hback⟩ := levels_agree (m := m) valid packed
  refine ⟨fun data r h => hroot data r (decode_of_decodeOn_checked words h), fun sized => ⟨?_, ?_⟩⟩
  · intro data r h
    exact hroot data r (decode_of_decodeOn_wrapping sized h)
  · intro r data ha hencode
    rw [← hback r data ha hencode]
    exact decodeOn_of_sized sized m data

theorem levels_agree_in_words_nested :
    let s : Schema := ⟨"Log", [⟨"marks", .vector (.uint 2) 2, .reject⟩,
      ⟨"pages", .list (.list (.uint 1) 3) 2, .reject⟩]⟩
    let r : Record := [.vector [.uint (UInt256.ofNat 1), .uint (UInt256.ofNat 515)],
      .list [.list [], .list [.uint (UInt256.ofNat 7)]]]
    let data : Bytes := [1, 0, 3, 2, 8, 0, 0, 0, 8, 0, 0, 0, 8, 0, 0, 0, 7]
    s.Valid ∧ (∀ k ∈ s.kind.within, k.packedSize ≤ maxSize) ∧
      (∀ k ∈ s.kind.within, k.bound < UInt64.size) ∧ s.Sized ∧ s.encode r = .ok data ∧
      (∃ a, s.root 2 r = .ok a) ∧ (s.decodeOn .wrapping 2 data).run = some (.ok r) ∧
      (s.decodeOn .checked 2 data).run = some (.ok r) := by
  intro s r data
  have valid : s.Valid := by
    unfold s
    rfl
  have packed : ∀ k ∈ s.kind.within, k.packedSize ≤ maxSize := by
    unfold s
    decide
  have words : ∀ k ∈ s.kind.within, k.bound < UInt64.size := by
    unfold s
    decide
  have sized : s.Sized := by
    unfold s
    decide
  have hencode : s.encode r = .ok data := by
    unfold s r data
    rfl
  have hchecked : (s.decodeOn .checked 2 data).run = some (.ok r) := by
    unfold s r data
    rfl
  obtain ⟨hroot, hwords⟩ := levels_agree_in_words (m := 2) valid packed words
  have ha := hroot data r hchecked
  obtain ⟨hwrapping, -⟩ := (hwords sized).2 r data ha hencode
  exact ⟨valid, packed, words, sized, hencode, ha, hwrapping, hchecked⟩

theorem packed_boards : ∀ k ∈ boards.kind.within, k.packedSize ≤ maxSize := by
  rw [within_boards]
  decide

/-- **Sizes that wrap around make levels differ.**  A vector that is decoded without its items has no
root.  And a list of boards that has none of them has a root and an encoding, but it is not decoded:
it would be divided into boards of no bytes, and in checked words a board has no size at all. -/
theorem levels_differ_in_words :
    (tapes.Valid ∧ (∀ k ∈ tapes.kind.within, k.packedSize ≤ maxSize) ∧
      (∀ k ∈ tapes.kind.within, k.bound < UInt64.size) ∧
      (tapes.decodeOn .wrapping 1 [7]).run = some (.ok [.vector []]) ∧
      ∀ a, tapes.root 1 [.vector []] ≠ .ok a) ∧
    boards.Valid ∧ (∀ k ∈ boards.kind.within, k.packedSize ≤ maxSize) ∧
      (∀ k ∈ boards.kind.within, k.bound < UInt64.size) ∧
      (∃ a, boards.root 1 [.list []] = .ok a) ∧ boards.encode [.list []] = .ok [4, 0, 0, 0] ∧
      (boards.decodeOn .wrapping 1 [4, 0, 0, 0]).run = none ∧
      (boards.decodeOn .checked 1 [4, 0, 0, 0]).run = none := by
  have hroot : ∃ a, boards.root 1 [.list []] = .ok a := by
    have conforms : boards.Conforms [.list []] := by rfl
    exact (root_iff_nesting_le (by rfl) conforms packed_boards).2 (by decide)
  have hrefused : tapes.root 1 [.vector []] =
      .error (.mismatch (.value none (.itemCount 3 0))) := by rfl
  refine ⟨⟨rfl, by decide, bound_tapes, decodeOn_tapes, fun a h => ?_⟩, rfl, packed_boards,
    bound_boards, hroot, by rfl, by rfl, by rfl⟩
  rw [hrefused] at h
  cases h

end SszRecord.Schema

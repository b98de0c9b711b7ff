/-
How items tile their region.

The table of a region is read twice: its first slot tells how many items there are, and all of its
slots are read again to cut the region.  When both readings pass, the table and the items lie one
behind the other and nothing is left over; and they pass exactly when the slots, read as numbers,
say so by themselves.

* `checkOffsets_eq_ok` : which offsets pass;
* `tiles_spans`, `start_spans` : the spans that they cut out;
* `readTable_of_le` : a table is read wherever there is room for it;
* `items_tile` : both readings together.
-/
import Mathlib
import SszRecord.Proofs.Wire.Reading

namespace SszRecord.Wire

/-! ### Spans -/

/-- Spans from `start` to `stop`, each of them beginning where the one before it ends. -/
def Tiles : (start stop : Nat) → List Span → Prop
  | start, stop, [] => start = stop
  | start, stop, s :: rest => s.start = start ∧ s.start ≤ s.stop ∧ Tiles s.stop stop rest

theorem checkOffsets_eq_ok {stop previous : Nat} {offsets : List Nat} :
    checkOffsets stop previous offsets = .ok () ↔
      (∀ o ∈ offsets, o ≤ stop) ∧ (previous :: offsets).IsChain (· ≤ ·) := by
  induction offsets generalizing previous with
  | nil => simp [checkOffsets]
  | cons o offsets ih =>
    rw [checkOffsets, refuse_eq_ok, ih, List.forall_mem_cons, List.isChain_cons_cons]
    constructor
    · rintro ⟨hpass, hstop, hchain⟩
      exact ⟨⟨by omega, hstop⟩, by omega, hchain⟩
    · rintro ⟨⟨ho, hstop⟩, hprevious, hchain⟩
      exact ⟨by omega, hstop, hchain⟩

theorem start_spans (stop : Nat) (offsets : List Nat) :
    (spans stop offsets).map Span.start = offsets := by
  induction offsets with
  | nil => rfl
  | cons o offsets ih =>
    cases offsets with
    | nil => rfl
    | cons next rest => rw [spans, List.map_cons, ih]

/-- Offsets that pass cut out spans that tile what is behind the first of them. -/
theorem tiles_spans {stop previous : Nat} {offsets : List Nat}
    (h : checkOffsets stop previous offsets = .ok ()) :
    Tiles (offsets.headD stop) stop (spans stop offsets) := by
  induction offsets generalizing previous with
  | nil => rfl
  | cons o offsets ih =>
    rw [checkOffsets, refuse_eq_ok, not_or, not_lt, not_lt] at h
    obtain ⟨⟨hstop, -⟩, h⟩ := h
    have hrest := ih h
    cases offsets with
    | nil => exact ⟨rfl, hstop, rfl⟩
    | cons next rest =>
      rw [checkOffsets, refuse_eq_ok, not_or, not_lt, not_lt] at h
      exact ⟨rfl, h.1.2, hrest⟩

/-! ### Tables -/

/-- The number in a slot of the table in front of a region. -/
def offsetAt (region : Bytes) (i : Nat) : Nat :=
  Bytes.toNat ((region.drop (i * offsetSize)).take offsetSize)

theorem readTable_of_le {region : Bytes} {i count : Nat}
    (room : (i + count) * offsetSize ≤ region.length) :
    readTable region (i * offsetSize) count =
      .ok ((List.range' i count).map (offsetAt region)) := by
  induction count generalizing i with
  | zero => rfl
  | succ count ih =>
    rw [offsetSize] at room
    have hslot : readOffset region (i * offsetSize) = .ok (offsetAt region i) := by
      rw [readOffset, offsetSize, if_neg (by omega)]
      rfl
    have hrest := ih (i := i + 1) (by rw [offsetSize]; omega)
    rw [Nat.succ_mul] at hrest
    rw [readTable, hslot, ok_bind, hrest]
    rfl

/-! ### Items -/

section Items

variable {region : Bytes} {n : Nat}

/-- Items are cut out exactly if the slots in front of them begin with the size of their table,
never decrease and never point behind the region. -/
theorem itemSpans_eq_ok_iff (hn : n ≠ 0) {ss : List Span} :
    itemSpans region n = .ok ss ↔
      n * offsetSize ≤ region.length ∧ offsetAt region 0 = n * offsetSize ∧
        checkOffsets region.length 0 ((List.range n).map (offsetAt region)) = .ok () ∧
          spans region.length ((List.range n).map (offsetAt region)) = ss := by
  rw [itemSpans, if_neg hn]
  simp only [throw_eq_error, error_bind, refuse_eq_ok, not_lt]
  refine and_congr_right fun room => ?_
  have htable : readTable region (0 * offsetSize) n =
      .ok ((List.range' 0 n).map (offsetAt region)) := readTable_of_le (by rwa [Nat.zero_add])
  rw [Nat.zero_mul, ← List.range_eq_range'] at htable
  obtain ⟨n, rfl⟩ := Nat.exists_eq_succ_of_ne_zero hn
  have hfirst : ((List.range (n + 1)).map (offsetAt region)).headD 0 = offsetAt region 0 := by
    rw [List.range_succ_eq_map]
    rfl
  rw [htable]
  simp only [ok_bind, hfirst, refuse_eq_ok, ne_eq, not_not, spansOfOffsets, bind_eq_ok,
    Unique.exists_iff, PUnit.default_eq_unit, pure_eq_ok, Except.ok.injEq]

/-- What a table says by itself: the slots never decrease and never point behind the region. -/
theorem checkOffsets_offsetAt (hn : n ≠ 0) :
    checkOffsets region.length 0 ((List.range n).map (offsetAt region)) = .ok () ↔
      (∀ i < n, offsetAt region i ≤ region.length) ∧
        ∀ i, i + 1 < n → offsetAt region i ≤ offsetAt region (i + 1) := by
  obtain ⟨n, rfl⟩ := Nat.exists_eq_succ_of_ne_zero hn
  have hchain : (0 :: (List.range (n + 1)).map (offsetAt region)).IsChain (· ≤ ·) ↔
      ∀ i, i + 1 < n + 1 → offsetAt region i ≤ offsetAt region (i + 1) := by
    rw [List.range_succ_eq_map, List.map_cons, List.isChain_cons_cons,
      and_iff_right (Nat.zero_le _), ← List.map_cons, ← List.range_succ_eq_map, List.isChain_map,
      List.isChain_range_succ]
    simp only [Nat.add_lt_add_iff_right, Nat.succ_eq_add_one]
  rw [checkOffsets_eq_ok, hchain, List.forall_mem_map]
  simp only [List.mem_range]

theorem readOffset_eq_ok_iff {o : Nat} :
    readOffset region 0 = .ok o ↔ offsetSize ≤ region.length ∧ offsetAt region 0 = o := by
  rw [readOffset, refuse_eq_ok, not_lt, Nat.zero_add, Except.ok.injEq, offsetAt, Nat.zero_mul]

/-- The items that are cut out tile what is behind the table, and the table holds their starts. -/
theorem tiles_of_itemSpans (hn : n ≠ 0) {ss : List Span} (h : itemSpans region n = .ok ss) :
    Tiles (n * offsetSize) region.length ss ∧
      (ss.map fun s => Bytes.ofNat offsetSize s.start).flatten ++
        (ss.map fun s => s.slice region).flatten = region := by
  obtain ⟨-, hfirst, hcheck, hss⟩ := (itemSpans_eq_ok_iff hn).1 h
  have hhead : ((List.range n).map (offsetAt region)).headD region.length = n * offsetSize := by
    obtain ⟨n, rfl⟩ := Nat.exists_eq_succ_of_ne_zero hn
    rw [List.range_succ_eq_map, List.map_cons, List.headD_cons, hfirst]
  have htiles := tiles_spans hcheck
  rw [hhead, hss] at htiles
  refine ⟨htiles, ?_⟩
  -- the slots hold the starts of the items
  have hstarts := (starts_of_checkOffsets hcheck).1
  have hoffsets := start_spans region.length ((List.range n).map (offsetAt region))
  rw [hhead, hss] at hstarts
  rw [hss] at hoffsets
  obtain ⟨hlen, -, hregion⟩ := tabled_of_itemSpans hn h
  rw [Wire.region, inlineSize_tabled, hlen, slots_tabled, payloads_tabled, hstarts, ← hoffsets,
    List.map_map] at hregion
  exact hregion

/-- **Offset tables tile the region.**  When the number of items is told and they are cut out, there
are so many of them, they tile what is behind their table, and the table and the items make up the
region.  Both succeed exactly for the empty region and for one whose first slot is the size of a
table that has room in it and is not too long, and whose slots never decrease and never point behind
the end. -/
theorem items_tile (region : Bytes) (max : Nat) :
    (∀ n ss, itemCount region max = .ok n ∧ itemSpans region n = .ok ss →
      n ≤ max ∧ n * offsetSize ≤ region.length ∧ (n = 0 → region = []) ∧ ss.length = n ∧
        Tiles (n * offsetSize) region.length ss ∧
          (ss.map fun s => Bytes.ofNat offsetSize s.start).flatten ++
            (ss.map fun s => s.slice region).flatten = region) ∧
      ((∃ n ss, itemCount region max = .ok n ∧ itemSpans region n = .ok ss) ↔
        region = [] ∨ offsetSize ≤ region.length ∧ ∃ n, offsetAt region 0 = n * offsetSize ∧
          1 ≤ n ∧ n ≤ max ∧ n * offsetSize ≤ region.length ∧
            (∀ i < n, offsetAt region i ≤ region.length) ∧
              ∀ i, i + 1 < n → offsetAt region i ≤ offsetAt region (i + 1)) := by
  constructor
  · rintro n ss ⟨hcount, hspans⟩
    have hlen := length_itemSpans hspans
    obtain ⟨rfl, rfl⟩ | ⟨hn, hmax, -, room⟩ := itemCount_eq_ok.1 hcount
    · cases hspans
      exact ⟨Nat.zero_le _, Nat.le_refl _, fun _ => rfl, rfl, rfl, rfl⟩
    · exact ⟨hmax, room, fun h => absurd h hn, hlen, tiles_of_itemSpans hn hspans⟩
  · constructor
    · rintro ⟨n, ss, hcount, hspans⟩
      obtain ⟨rfl, -⟩ | ⟨hn, hmax, hread, room⟩ := itemCount_eq_ok.1 hcount
      · exact .inl rfl
      · obtain ⟨hsize, hfirst⟩ := readOffset_eq_ok_iff.1 hread
        obtain ⟨-, -, hcheck, -⟩ := (itemSpans_eq_ok_iff hn).1 hspans
        exact .inr ⟨hsize, n, hfirst, Nat.one_le_iff_ne_zero.2 hn, hmax, room,
          (checkOffsets_offsetAt hn).1 hcheck⟩
    · rintro (rfl | ⟨hsize, n, hfirst, hpos, hmax, room, hoffsets⟩)
      · exact ⟨0, [], rfl, rfl⟩
      · have hn : n ≠ 0 := Nat.one_le_iff_ne_zero.1 hpos
        have hread := readOffset_eq_ok_iff.2 ⟨hsize, hfirst⟩
        exact ⟨n, _, itemCount_eq_ok.2 (.inr ⟨hn, hmax, hread, room⟩),
          (itemSpans_eq_ok_iff hn).2 ⟨room, hfirst, (checkOffsets_offsetAt hn).2 hoffsets, rfl⟩⟩

/-- Three items of two, no and one byte. -/
example : itemSpans [12, 0, 0, 0, 14, 0, 0, 0, 14, 0, 0, 0, 7, 8, 9] 3 =
    .ok [⟨12, 14⟩, ⟨14, 14⟩, ⟨14, 15⟩] := by
  rfl

end Items

end SszRecord.Wire

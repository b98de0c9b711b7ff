/-
Byte strings, spelled out.

A byte string is a sequence of integers of one byte, and nothing but its kind tells the two apart.
At any set of positions in a schema, byte strings can be spelled out as such sequences: a string of
a fixed length as a vector, and one with a maximum as a list.

* `Kind.holds_spelled` : the values of a kind are spelled out as values of the kind spelled out;
* `Kind.layout_spelled`, `Kind.encode_spelled` : they are written as the same bytes, or refused for
  the same reason;
* `Kind.root_spelled` : they have the same root, as far as the limit on levels allows;
* `Schema.spelled_agrees` : the same for records.
-/
import Mathlib
import SszRecord.Proofs.Limits
import SszRecord.Proofs.Wire.Room

namespace SszRecord

/-- A set of positions in a kind.  A position is the way down to it: the index of a field for every
container on the way, and zero for every sequence. -/
abbrev Positions := List Nat → Bool

/-- The positions behind one step down. -/
def Positions.below (p : Positions) (i : Nat) : Positions := fun way => p (i :: way)

/-- The value of a byte. -/
def Value.ofByte (b : UInt8) : Value := .uint (UInt256.ofNat b.toNat)

namespace Kind

mutual

/-- A kind whose byte strings at some positions are spelled out. -/
def spelled : Kind → Positions → Kind
  | .bytes n, p => if p [] then .vector (.uint 1) n else .bytes n
  | .uint w, _ => .uint w
  | .byteList max, p => if p [] then .list (.uint 1) max else .byteList max
  | .vector item n, p => .vector (item.spelled (p.below 0)) n
  | .list item max, p => .list (item.spelled (p.below 0)) max
  | .container name fields, p => .container name (spelledFields fields p 0)

/-- Fields, the first of them at index `i`. -/
def spelledFields : List (Field Kind) → Positions → (i : Nat) → List (Field Kind)
  | [], _, _ => []
  | ⟨key, kind, absent⟩ :: fields, p, i =>
    ⟨key, kind.spelled (p.below i), absent⟩ :: spelledFields fields p (i + 1)

end

mutual

/-- A value of a kind whose byte strings at some positions are spelled out. -/
def spelledValue : Kind → Positions → Value → Value
  | .bytes _, p, .bytes b => if p [] then .vector (b.map Value.ofByte) else .bytes b
  | .byteList _, p, .bytes b => if p [] then .list (b.map Value.ofByte) else .bytes b
  | .vector item _, p, .vector items =>
    .vector (items.map fun v => item.spelledValue (p.below 0) v)
  | .list item _, p, .list items => .list (items.map fun v => item.spelledValue (p.below 0) v)
  | .container _ fields, p, .container values => .container (spelledValues fields p 0 values)
  | _, _, v => v

/-- The values of fields, the first of them at index `i`. -/
def spelledValues : List (Field Kind) → Positions → (i : Nat) → List Value → List Value
  | ⟨_, kind, _⟩ :: fields, p, i, v :: values =>
    kind.spelledValue (p.below i) v :: spelledValues fields p (i + 1) values
  | _, _, _, values => values

end

/-! ### Kinds -/

theorem spelledFields_cons (f : Field Kind) (fields : List (Field Kind)) (p : Positions) (i : Nat) :
    spelledFields (f :: fields) p i =
      ⟨f.key, f.kind.spelled (p.below i), f.absent⟩ :: spelledFields fields p (i + 1) := by
  rw [spelledFields]

theorem spelledValues_cons (f : Field Kind) (fields : List (Field Kind)) (p : Positions) (i : Nat)
    (v : Value) (values : List Value) :
    spelledValues (f :: fields) p i (v :: values) =
      f.kind.spelledValue (p.below i) v :: spelledValues fields p (i + 1) values := by
  rw [spelledValues]

theorem spelledFields_ne_nil {fields : List (Field Kind)} (h : fields ≠ []) (p : Positions)
    (i : Nat) : spelledFields fields p i ≠ [] := by
  obtain ⟨f, fields, rfl⟩ := List.exists_cons_of_ne_nil h
  rw [spelledFields_cons]
  exact List.cons_ne_nil _ _

theorem length_spelledFields (fields : List (Field Kind)) (p : Positions) (i : Nat) :
    (spelledFields fields p i).length = fields.length := by
  induction fields generalizing i with
  | nil => rfl
  | cons f fields ih => rw [spelledFields_cons, List.length_cons, ih, List.length_cons]

theorem length_spelledValues (fields : List (Field Kind)) (p : Positions) (i : Nat)
    (values : List Value) : (spelledValues fields p i values).length = values.length := by
  induction fields generalizing i values with
  | nil => rfl
  | cons f fields ih =>
    cases values with
    | nil => rfl
    | cons v values => rw [spelledValues_cons, List.length_cons, ih, List.length_cons]

/-- What holds of the kinds of fields at every position holds of the fields spelled out. -/
theorem forall_spelledFields {P : Kind → Prop} {fields : List (Field Kind)}
    (h : ∀ f ∈ fields, ∀ p, P (f.kind.spelled p)) (p : Positions) (i : Nat) :
    ∀ f ∈ spelledFields fields p i, P f.kind := by
  induction fields generalizing i with
  | nil => exact List.forall_mem_nil _
  | cons f fields ih =>
    obtain ⟨hf, hfields⟩ := List.forall_mem_cons.1 h
    rw [spelledFields_cons]
    exact List.forall_mem_cons.2 ⟨hf _, ih hfields (i + 1)⟩

theorem map_spelledFields {β : Type} {g : Kind → β} {fields : List (Field Kind)}
    (h : ∀ f ∈ fields, ∀ p, g (f.kind.spelled p) = g f.kind) (p : Positions) (i : Nat) :
    (spelledFields fields p i).map (fun f => g f.kind) = fields.map fun f => g f.kind := by
  induction fields generalizing i with
  | nil => rfl
  | cons f fields ih =>
    obtain ⟨hf, hfields⟩ := List.forall_mem_cons.1 h
    rw [spelledFields_cons, List.map_cons, List.map_cons, hf, ih hfields]

/-- Fields of the same sizes make up an inline part of the same size. -/
theorem fixedPartSize_congr {fields fields' : List (Field Kind)}
    (h : fields'.map (fun f => f.kind.fixedSize?) = fields.map fun f => f.kind.fixedSize?) :
    fixedPartSize fields' = fixedPartSize fields ∧
      allFixedSize fields' = allFixedSize fields := by
  have hsum := congrArg (fun l => (l.map fun n : Option Nat => n.getD offsetSize).sum) h
  have hall := congrArg (fun l => ∀ n ∈ l, Option.isSome n = true) h
  simp only [List.map_map] at hsum
  simp only [List.forall_mem_map, ← isFixedSize_eq] at hall
  rw [fixedPartSize_eq_sum, fixedPartSize_eq_sum, Bool.eq_iff_iff, allFixedSize_iff,
    allFixedSize_iff, hall]
  exact ⟨hsum, Iff.rfl⟩

/-- Spelling out changes no size. -/
theorem fixedSize?_spelled (k : Kind) (p : Positions) :
    (k.spelled p).fixedSize? = k.fixedSize? := by
  induction k generalizing p with
  | bytes n =>
    rw [spelled]
    split
    · exact congrArg some (Nat.one_mul n)
    · rfl
  | uint w => rfl
  | byteList max =>
    rw [spelled]
    split
    · rfl
    · rfl
  | vector item n ih => rw [spelled, fixedSize?, ih, fixedSize?]
  | list item max => rfl
  | container name fields ih =>
    obtain ⟨hsize, hall⟩ := fixedPartSize_congr (map_spelledFields ih p 0)
    rw [spelled, fixedSize?, hsize, hall, fixedSize?]

theorem isFixedSize_spelled (k : Kind) (p : Positions) :
    (k.spelled p).isFixedSize = k.isFixedSize := by
  rw [isFixedSize_eq, fixedSize?_spelled, ← isFixedSize_eq]

theorem isBasic_spelled (k : Kind) (p : Positions) : (k.spelled p).isBasic = k.isBasic := by
  cases k with
  | bytes n =>
    rw [spelled]
    split
    · rfl
    · rfl
  | byteList max =>
    rw [spelled]
    split
    · rfl
    · rfl
  | _ => rfl

theorem deepest_spelledFields {fields : List (Field Kind)}
    (h : ∀ f ∈ fields, ∀ p, (f.kind.spelled p).nesting ≤ f.kind.nesting + 1) (p : Positions)
    (i : Nat) : deepest (spelledFields fields p i) ≤ deepest fields + 1 := by
  induction fields generalizing i with
  | nil => exact Nat.zero_le _
  | cons f fields ih =>
    obtain ⟨hf, hfields⟩ := List.forall_mem_cons.1 h
    have hhead := hf (p.below i)
    have htail := ih hfields (i + 1)
    rw [spelledFields_cons, deepest, deepest]
    omega

/-- Spelling out adds at most one level. -/
theorem nesting_spelled_le (k : Kind) (p : Positions) : (k.spelled p).nesting ≤ k.nesting + 1 := by
  induction k generalizing p with
  | bytes n =>
    rw [spelled]
    split
    · exact le_rfl
    · exact Nat.zero_le _
  | uint w => exact Nat.zero_le _
  | byteList max =>
    rw [spelled]
    split
    · exact le_rfl
    · exact Nat.zero_le _
  | vector item n ih =>
    rw [spelled, nesting, nesting]
    exact Nat.succ_le_succ (ih _)
  | list item max ih =>
    rw [spelled, nesting, nesting]
    exact Nat.succ_le_succ (ih _)
  | container name fields ih =>
    rw [spelled, nesting, nesting]
    exact Nat.succ_le_succ (deepest_spelledFields ih p 0)

theorem sound_spelled {k : Kind} (hk : k.Sound) (p : Positions) : (k.spelled p).Sound := by
  have hbyte : (uint 1).Sound := .uint List.mem_cons_self
  induction hk generalizing p with
  | bytes pos =>
    rw [spelled]
    split
    · exact .vector pos hbyte
    · exact .bytes pos
  | uint width => exact .uint width
  | byteList =>
    rw [spelled]
    split
    · exact .list hbyte
    · exact .byteList
  | vector pos _ ih =>
    rw [spelled]
    exact .vector pos (ih _)
  | list _ ih =>
    rw [spelled]
    exact .list (ih _)
  | container nonempty _ ih =>
    rw [spelled]
    exact .container (spelledFields_ne_nil nonempty p 0) (forall_spelledFields ih p 0)

/-! ### Values -/

theorem holds_ofByte (b : UInt8) : (uint 1).Holds (Value.ofByte b) := by
  refine .uint List.mem_cons_self ((UInt256.fitsWidth_iff _ _).2 ?_)
  have hb := b.toNat_lt
  rw [UInt256.toNat_ofNat]
  exact lt_of_le_of_lt (Nat.mod_le _ _) hb

theorem holds_ofBytes (b : Bytes) : ∀ v ∈ b.map Value.ofByte, (uint 1).Holds v :=
  List.forall_mem_map.2 fun x _ => holds_ofByte x

/-- The values of fields are spelled out side by side with the fields. -/
theorem forall₂_spelled {R : Kind → Value → Prop} {fields : List (Field Kind)}
    {values : List Value}
    (h : List.Forall₂ (fun f v => ∀ p, R (f.kind.spelled p) (f.kind.spelledValue p v))
      fields values) (p : Positions) (i : Nat) :
    List.Forall₂ (fun f v => R f.kind v) (spelledFields fields p i)
      (spelledValues fields p i values) := by
  induction h generalizing i with
  | nil => exact .nil
  | cons hf _ ih =>
    rw [spelledFields_cons, spelledValues_cons]
    exact .cons (hf _) (ih (i + 1))

/-- **The values of a kind are values of the kind spelled out**, once they are spelled out as
well. -/
theorem holds_spelled {k : Kind} {v : Value} (h : k.Holds v) (p : Positions) :
    (k.spelled p).Holds (k.spelledValue p v) := by
  have hbyte : (uint 1).Sound := .uint List.mem_cons_self
  induction h generalizing p with
  | @bytes n b pos length =>
    rw [spelled, spelledValue]
    split
    · exact .vector pos hbyte (by rwa [List.length_map]) (holds_ofBytes b)
    · exact .bytes pos length
  | uint width fits => exact .uint width fits
  | @byteList max b length =>
    rw [spelled, spelledValue]
    split
    · exact .list hbyte (by rwa [List.length_map]) (holds_ofBytes b)
    · exact .byteList length
  | vector pos sound length _ ih =>
    rw [spelled, spelledValue]
    exact .vector pos (sound_spelled sound _) (by rwa [List.length_map])
      (List.forall_mem_map.2 fun v hv => ih v hv _)
  | list sound length _ ih =>
    rw [spelled, spelledValue]
    exact .list (sound_spelled sound _) (by rwa [List.length_map])
      (List.forall_mem_map.2 fun v hv => ih v hv _)
  | container nonempty length _ ih =>
    rw [spelled, spelledValue]
    refine holds_container.2 ⟨spelledFields_ne_nil nonempty p 0, ?_⟩
    exact forall₂_spelled (R := Holds) (forall₂_fields (R := fun k v =>
      ∀ p, (k.spelled p).Holds (k.spelledValue p v)) length ih) p 0

/-! ### Encodings -/

/-- A byte is written as itself. -/
theorem take_toBytes_ofByte (b : UInt8) : (UInt256.ofNat b.toNat).toBytes.take 1 = [b] := by
  have hb := b.toNat_lt
  have hsize : b.toNat % UInt256.size = b.toNat :=
    Nat.mod_eq_of_lt (hb.trans (by decide))
  rw [UInt256.take_toBytes (by decide), UInt256.toNat_ofNat, hsize, Bytes.ofNat, Bytes.ofNat,
    UInt8.ofNat_toNat]

theorem flatten_singletons (b : Bytes) : (b.map fun x => [x]).flatten = b := by
  induction b with
  | nil => rfl
  | cons x b ih => rw [List.map_cons, List.flatten_cons, ih, List.singleton_append]

/-- The items of a sequence are mapped and then worked through, or worked through at once. -/
theorem mapItems_map_eq {α β γ : Type} {f : α → Except CodecError γ} {f' : β → Except CodecError γ}
    {g : α → β} {items : List α} (h : ∀ a ∈ items, f' (g a) = f a) :
    mapItems f' (items.map g) = mapItems f items := by
  rw [mapItems_map, mapItems_congr h]

theorem encodeItems_ofBytes (b : Bytes) :
    encodeItems (.uint 1) (fun v => (uint 1).encode v) (b.map Value.ofByte) = .ok b := by
  have hitems : mapItems (fun v => (uint 1).encode v) (b.map Value.ofByte) =
      .ok (b.map fun x => [x]) := by
    rw [mapItems_map]
    refine mapItems_ok fun x _ => ?_
    rw [Value.ofByte, encode, take_toBytes_ofByte]
  rw [encodeItems, isFixedSize, if_pos rfl, hitems, ok_bind, flatten_singletons]
  rfl

theorem part_spelled {k : Kind} {v : Value} {p : Positions}
    (h : (k.spelled p).layout (k.spelledValue p v) = k.layout v) :
    (k.spelled p).part (k.spelledValue p v) = k.part v := by
  rw [part, part, isFixedSize_spelled, h]

theorem parts_spelled {fields : List (Field Kind)} {values : List Value}
    (h : List.Forall₂ (fun f v =>
      ∀ p, (f.kind.spelled p).layout (f.kind.spelledValue p v) = f.kind.layout v) fields values)
    (p : Positions) (i : Nat) :
    parts (spelledFields fields p i) (spelledValues fields p i values) = parts fields values := by
  induction h generalizing i with
  | nil => rfl
  | cons hf _ ih =>
    rw [spelledFields_cons, spelledValues_cons, parts_cons, parts_cons, ih, part_spelled (hf _)]

/-- **Spelling out changes no byte of the layout.** -/
theorem layout_spelled {k : Kind} {v : Value} (h : k.Holds v) (p : Positions) :
    (k.spelled p).layout (k.spelledValue p v) = k.layout v := by
  have hholds := holds_spelled h p
  induction h generalizing p with
  | @bytes n b pos length =>
    rw [spelled, spelledValue] at hholds ⊢
    split at hholds
    · rename_i hp
      rw [if_pos hp, if_pos hp]
      exact ((encode_eq_ok hholds).1 (encodeItems_ofBytes b)).2
    · rename_i hp
      rw [if_neg hp, if_neg hp]
  | uint width fits => rfl
  | @byteList max b length =>
    rw [spelled, spelledValue] at hholds ⊢
    split at hholds
    · rename_i hp
      rw [if_pos hp, if_pos hp]
      exact ((encode_eq_ok hholds).1 (encodeItems_ofBytes b)).2
    · rename_i hp
      rw [if_neg hp, if_neg hp]
  | vector _ _ _ each ih =>
    rw [spelled, spelledValue, layout_vector, layout_vector, List.map_map]
    refine congrArg Wire.region (List.map_congr_left fun v hv => ?_)
    exact part_spelled (ih v hv _ (holds_spelled (each v hv) _))
  | list _ _ each ih =>
    rw [spelled, spelledValue, layout_list, layout_list, List.map_map]
    refine congrArg Wire.region (List.map_congr_left fun v hv => ?_)
    exact part_spelled (ih v hv _ (holds_spelled (each v hv) _))
  | container _ length each ih =>
    rw [spelled, spelledValue, layout, layout]
    refine congrArg Wire.region (parts_spelled ?_ p 0)
    exact forall₂_fields (R := fun k v =>
      ∀ p, (k.spelled p).layout (k.spelledValue p v) = k.layout v) length
      fun q hq p => ih q hq p (holds_spelled (each q hq) p)

theorem valueSize_spelled {k : Kind} {v : Value} (h : k.Holds v) (p : Positions) :
    (k.spelled p).valueSize (k.spelledValue p v) = k.valueSize v := by
  rw [valueSize_eq (holds_spelled h p), layout_spelled h, valueSize_eq h]

theorem itemSlots_map_eq {α β : Type} {size : α → Except CodecError Nat}
    {size' : β → Except CodecError Nat} {g : α → β} {items : List α}
    (h : ∀ a ∈ items, size' (g a) = size a) (offset : Nat) :
    itemSlots size' offset (items.map g) = itemSlots size offset items := by
  induction items generalizing offset with
  | nil => rfl
  | cons a items ih =>
    obtain ⟨ha, hitems⟩ := List.forall_mem_cons.1 h
    simp only [List.map_cons, itemSlots, ha, ih hitems]

theorem encodeItems_spelled {item : Kind} {items : List Value} {p : Positions}
    (each : ∀ v ∈ items, item.Holds v)
    (h : ∀ v ∈ items, (item.spelled p).encode (item.spelledValue p v) = item.encode v) :
    encodeItems (item.spelled p) (fun v => (item.spelled p).encode v)
        (items.map fun v => item.spelledValue p v) =
      encodeItems item (fun v => item.encode v) items := by
  rw [encodeItems, encodeItems, isFixedSize_spelled, mapItems_map_eq h, List.length_map,
    itemSlots_map_eq fun v hv => valueSize_spelled (each v hv) p]

section Fields

variable {fields : List (Field Kind)} {values : List Value}

theorem inlineParts_spelled
    (h : List.Forall₂ (fun f v => f.kind.Holds v ∧
      ∀ p, (f.kind.spelled p).encode (f.kind.spelledValue p v) = f.kind.encode v) fields values)
    (p : Positions) (i offset : Nat) :
    inlineParts offset (spelledFields fields p i) (spelledValues fields p i values) =
      inlineParts offset fields values := by
  induction h generalizing i offset with
  | nil => rfl
  | @cons f v fields values hf _ ih =>
    obtain ⟨hholds, hencode⟩ := hf
    simp only [spelledFields_cons, spelledValues_cons, inlineParts, isFixedSize_spelled, hencode,
      valueSize_spelled hholds, ih]

theorem payloadParts_spelled
    (h : List.Forall₂ (fun f v => f.kind.Holds v ∧
      ∀ p, (f.kind.spelled p).encode (f.kind.spelledValue p v) = f.kind.encode v) fields values)
    (p : Positions) (i : Nat) :
    payloadParts (spelledFields fields p i) (spelledValues fields p i values) =
      payloadParts fields values := by
  induction h generalizing i with
  | nil => rfl
  | cons hf _ ih =>
    simp only [spelledFields_cons, spelledValues_cons, payloadParts, isFixedSize_spelled, hf.2, ih]

end Fields

/-- **Spelling out changes no encoding**, nor the reason why there is none. -/
theorem encode_spelled {k : Kind} {v : Value} (h : k.Holds v) (p : Positions) :
    (k.spelled p).encode (k.spelledValue p v) = k.encode v := by
  induction h generalizing p with
  | @bytes n b _ _ =>
    rw [spelled, spelledValue]
    split
    · exact encodeItems_ofBytes b
    · rfl
  | uint _ _ => rfl
  | @byteList max b _ =>
    rw [spelled, spelledValue]
    split
    · exact encodeItems_ofBytes b
    · rfl
  | vector _ _ _ each ih =>
    rw [spelled, spelledValue, encode, encode]
    exact encodeItems_spelled each fun v hv => ih v hv _
  | list _ _ each ih =>
    rw [spelled, spelledValue, encode, encode]
    exact encodeItems_spelled each fun v hv => ih v hv _
  | @container name fields values _ length each ih =>
    have hfields := forall₂_fields (R := fun k v => k.Holds v ∧
      ∀ p, (k.spelled p).encode (k.spelledValue p v) = k.encode v) length
      fun q hq => ⟨each q hq, ih q hq⟩
    have hkinds : ∀ f ∈ fields, ∀ p, (f.kind.spelled p).fixedSize? = f.kind.fixedSize? :=
      fun f _ p => fixedSize?_spelled f.kind p
    obtain ⟨hsize, -⟩ := fixedPartSize_congr (map_spelledFields hkinds p 0)
    rw [spelled, spelledValue, encode, encode, hsize, inlineParts_spelled hfields,
      payloadParts_spelled hfields]

end Kind

/-! ### Roots -/

/-- An answer is the same as another one, unless it is refused for its levels. -/
def SameUnlessRefused {α : Type} (m : Nat) (x y : Except CodecError α) : Prop :=
  x = .error (.nestingTooDeep m) ∨ x = y

section Roots

variable {α β γ : Type} {m : Nat}

theorem same_bind {x y : Except CodecError α} {f g : α → Except CodecError β}
    (h : SameUnlessRefused m x y) (hfg : ∀ a, SameUnlessRefused m (f a) (g a)) :
    SameUnlessRefused m (x >>= f) (y >>= g) := by
  rcases h with rfl | rfl
  · exact .inl rfl
  · cases x with
    | error e => exact .inr rfl
    | ok a => exact hfg a

theorem same_mapItems {f : α → Except CodecError γ} {f' : β → Except CodecError γ} {g : α → β}
    {items : List α} (h : ∀ a ∈ items, SameUnlessRefused m (f' (g a)) (f a)) :
    SameUnlessRefused m (mapItems f' (items.map g)) (mapItems f items) := by
  induction items with
  | nil => exact .inr rfl
  | cons a items ih =>
    obtain ⟨ha, hitems⟩ := List.forall_mem_cons.1 h
    rw [List.map_cons, mapItems, mapItems]
    exact same_bind ha fun b => same_bind (ih hitems) fun bs => .inr rfl

/-- A level that one of two computations enters before it goes on as the other one. -/
theorem same_of_limited {n : Nat} {x y : Except CodecError α} (h : x = y) :
    SameUnlessRefused m (limited m n () >>= fun _ => x) y := by
  by_cases hn : n ≤ m
  · rw [limited_of_le hn, ok_bind]
    exact .inr h
  · rw [limited_of_lt (Nat.lt_of_not_le hn)]
    exact .inl rfl

end Roots

namespace Kind

variable {α : Type} {nodes : Nodes α} {m depth : Nat}

/-- Packed one-byte integers are the byte string that they spell out. -/
theorem itemsRoot_ofBytes {bound : Nat} (hbound : bound ≤ maxSize)
    (rootOf : Value → Except CodecError α) (b : Bytes) :
    itemsRoot nodes (.uint 1) rootOf bound (b.map Value.ofByte) =
      nodes.merkleizeBytes b bound := by
  have hitems : mapItems (packedItem 1) (b.map Value.ofByte) = .ok (b.map fun x => [x]) := by
    rw [mapItems_map]
    refine mapItems_ok fun x _ => ?_
    cases holds_ofByte x with
    | uint _ fits => rw [Value.ofByte, packedItem, if_pos fits, take_toBytes_ofByte]
  have hmin : Nat.min (bound * 1) maxSize = bound := by
    rw [Nat.mul_one]
    exact Nat.min_eq_left hbound
  rw [itemsRoot, hitems, ok_bind, flatten_singletons, hmin]

theorem itemsRoot_spelled {item : Kind} {items : List Value} {p : Positions} {bound : Nat}
    (h : ∀ v ∈ items, SameUnlessRefused m ((item.spelled p).root nodes m depth
      (item.spelledValue p v)) (item.root nodes m depth v)) :
    SameUnlessRefused m
      (itemsRoot nodes (item.spelled p) (fun v => (item.spelled p).root nodes m depth v) bound
        (items.map fun v => item.spelledValue p v))
      (itemsRoot nodes item (fun v => item.root nodes m depth v) bound items) := by
  rcases item.uint_or_composite with ⟨w, rfl⟩ | hitem
  · -- integers are packed as they are
    have hitems : (items.map fun v => (uint w).spelledValue p v) = items := by
      conv_rhs => rw [← List.map_id items]
      refine List.map_congr_left fun v _ => ?_
      cases v <;> rfl
    rw [hitems]
    exact .inr rfl
  · have hspelled : (item.spelled p).isBasic = false := by rw [isBasic_spelled, hitem]
    rw [itemsRoot_of_composite hspelled, itemsRoot_of_composite hitem]
    exact same_bind (same_mapItems h) fun roots => .inr rfl

theorem fieldRoots_spelled {fields : List (Field Kind)} {values : List Value}
    (h : List.Forall₂ (fun f v => ∀ p, SameUnlessRefused m
      ((f.kind.spelled p).root nodes m depth (f.kind.spelledValue p v))
      (f.kind.root nodes m depth v)) fields values) (p : Positions) (i : Nat) :
    SameUnlessRefused m
      (fieldRoots nodes m (spelledFields fields p i) depth (spelledValues fields p i values))
      (fieldRoots nodes m fields depth values) := by
  induction h generalizing i with
  | nil => exact .inr rfl
  | cons hf _ ih =>
    rw [spelledFields_cons, spelledValues_cons, fieldRoots, fieldRoots]
    exact same_bind (hf _) fun r => same_bind (ih (i + 1)) fun rs => .inr rfl

/-- **Spelling out changes no root**, but a byte string that is spelled out lies one level
deeper. -/
theorem root_spelled {k : Kind} {v : Value} (h : k.Holds v)
    (bounds : ∀ k' ∈ k.within, k'.bound ≤ maxSize) (p : Positions) :
    SameUnlessRefused m ((k.spelled p).root nodes m depth (k.spelledValue p v))
      (k.root nodes m depth v) := by
  induction h generalizing depth p with
  | @bytes n b _ length =>
    have hbound : n ≤ maxSize := bounds _ (self_mem_within _)
    rw [spelled, spelledValue]
    split
    · rw [root, root, if_pos length, if_pos (by rwa [List.length_map]), checkLevel_eq]
      exact same_of_limited (itemsRoot_ofBytes hbound _ b)
    · exact .inr rfl
  | uint _ _ => exact .inr rfl
  | @byteList max b length =>
    have hbound : max ≤ maxSize := bounds _ (self_mem_within _)
    rw [spelled, spelledValue]
    split
    · rw [root, root, if_pos length, if_pos (by rwa [List.length_map]), checkLevel_eq]
      refine same_of_limited ?_
      rw [itemsRoot_ofBytes hbound, List.length_map]
    · exact .inr rfl
  | vector _ _ length _ ih =>
    obtain ⟨-, hitem⟩ := forall_within_vector.1 bounds
    rw [spelled, spelledValue, root, root, if_pos length, if_pos (by rwa [List.length_map])]
    exact same_bind (.inr rfl) fun _ => itemsRoot_spelled fun v hv => ih v hv hitem _
  | list _ length _ ih =>
    obtain ⟨-, hitem⟩ := forall_within_list.1 bounds
    rw [spelled, spelledValue, root, root, if_pos length, if_pos (by rwa [List.length_map]),
      List.length_map]
    refine same_bind (.inr rfl) fun _ => ?_
    exact same_bind (itemsRoot_spelled fun v hv => ih v hv hitem _) fun r => .inr rfl
  | @container name fields values _ length _ ih =>
    obtain ⟨-, hfields⟩ := forall_within_container.1 bounds
    have hroots := forall₂_fields (R := fun k v => ∀ p, SameUnlessRefused m
      ((k.spelled p).root nodes m (depth + 1) (k.spelledValue p v))
      (k.root nodes m (depth + 1) v)) length
      fun q hq p => ih q hq (hfields q.1 (List.of_mem_zip hq).1) p
    rw [spelled, spelledValue, root, root, if_pos length.symm,
      if_pos (by rw [length_spelledValues, length_spelledFields, length])]
    refine same_bind (.inr rfl) fun _ => ?_
    exact same_bind (fieldRoots_spelled hroots p 0) fun roots => .inr rfl

end Kind

namespace Schema

/-- A schema whose byte strings at some positions are spelled out. -/
def spelled (s : Schema) (p : Positions) : Schema :=
  { s with fields := Kind.spelledFields s.fields p 0 }

/-- A record of a schema whose byte strings at some positions are spelled out. -/
def spelledRecord (s : Schema) (p : Positions) (r : Record) : Record :=
  Kind.spelledValues s.fields p 0 r

theorem kind_spelled (s : Schema) (p : Positions) : (s.spelled p).kind = s.kind.spelled p := rfl

theorem container_spelledRecord (s : Schema) (p : Positions) (r : Record) :
    .container (s.spelledRecord p r) = s.kind.spelledValue p (.container r) := rfl

variable {s : Schema} {r : Record}

theorem conforms_spelled (valid : s.Valid) (conforms : s.Conforms r) (p : Positions) :
    (s.spelled p).Valid ∧ (s.spelled p).Conforms (s.spelledRecord p r) := by
  rw [← holds_iff, kind_spelled, container_spelledRecord]
  exact Kind.holds_spelled (holds_iff.2 ⟨valid, conforms⟩) p

theorem recordSize_spelled (valid : s.Valid) (conforms : s.Conforms r) (p : Positions) :
    (s.spelled p).recordSize (s.spelledRecord p r) = s.recordSize r := by
  obtain ⟨valid', conforms'⟩ := conforms_spelled valid conforms p
  rw [recordSize_eq valid' conforms', recordSize_eq valid conforms, layout, layout, kind_spelled,
    container_spelledRecord, Kind.layout_spelled (holds_iff.2 ⟨valid, conforms⟩)]

theorem encode_spelled (valid : s.Valid) (conforms : s.Conforms r) (p : Positions) :
    (s.spelled p).encode (s.spelledRecord p r) = s.encode r := by
  obtain ⟨valid', conforms'⟩ := conforms_spelled valid conforms p
  rw [encode_of_conforms valid' conforms', encode_of_conforms valid conforms, kind_spelled,
    container_spelledRecord, Kind.encode_spelled (holds_iff.2 ⟨valid, conforms⟩)]

theorem rootOver_spelled {α : Type} {nodes : Nodes α} (valid : s.Valid) (conforms : s.Conforms r)
    (bounds : ∀ k ∈ s.kind.within, k.bound ≤ maxSize) (m : Nat) (p : Positions) :
    SameUnlessRefused m ((s.spelled p).rootOver nodes m (s.spelledRecord p r))
      (s.rootOver nodes m r) := by
  obtain ⟨-, hfields⟩ := Kind.holds_container.1 (holds_iff.2 ⟨valid, conforms⟩)
  obtain ⟨-, hbounds⟩ := Kind.forall_within_container.1 bounds
  have hvalid : s.validate = .ok () := valid
  have hvalid' : (s.spelled p).validate = .ok () := (conforms_spelled valid conforms p).1
  have length := hfields.length_eq.symm
  have length' : (s.spelledRecord p r).length = (s.spelled p).fields.length := by
    rw [spelledRecord, spelled, Kind.length_spelledValues, Kind.length_spelledFields, length]
  rw [rootOver, rootOver, hvalid, hvalid', ok_bind, ok_bind, if_pos length, if_pos length']
  refine same_bind (Kind.fieldRoots_spelled ?_ p 0) fun roots => .inr rfl
  refine forall₂_imp_of_mem hfields fun f hf v hv p => ?_
  exact Kind.root_spelled hv (hbounds f hf) p

theorem nesting_spelled_le (s : Schema) (p : Positions) :
    (s.spelled p).nesting ≤ s.nesting + 1 :=
  Kind.deepest_spelledFields (fun f _ p => Kind.nesting_spelled_le f.kind p) p 0

/-- **Byte strings and sequences of one-byte integers are the same** on the wire and in the tree.
Whatever byte strings of a record are spelled out, the record still fits its schema, and it has the
same size, the same encoding or the same reason to have none, and the same root under every limit
that leaves room for the levels of both; one level more than the schema has is enough. -/
theorem spelled_agrees (valid : s.Valid) (conforms : s.Conforms r)
    (bounds : ∀ k ∈ s.kind.within, k.bound ≤ maxSize) (p : Positions) :
    ((s.spelled p).Valid ∧ (s.spelled p).Conforms (s.spelledRecord p r)) ∧
    (s.spelled p).recordSize (s.spelledRecord p r) = s.recordSize r ∧
    (s.spelled p).encode (s.spelledRecord p r) = s.encode r ∧
    ∀ m, ((∀ max, (s.spelled p).root m (s.spelledRecord p r) ≠ .error (.nestingTooDeep max)) →
        (s.spelled p).root m (s.spelledRecord p r) = s.root m r) ∧
      (s.nesting + 1 ≤ m → (s.spelled p).root m (s.spelledRecord p r) = s.root m r) := by
  have hroot (m : Nat) (h : ∀ max, (s.spelled p).root m (s.spelledRecord p r) ≠
      .error (.nestingTooDeep max)) :
      (s.spelled p).root m (s.spelledRecord p r) = s.root m r :=
    (rootOver_spelled valid conforms bounds m p).resolve_left (h m)
  refine ⟨conforms_spelled valid conforms p, recordSize_spelled valid conforms p,
    encode_spelled valid conforms p, fun m => ⟨hroot m, fun hm => hroot m ?_⟩⟩
  exact (root_settles _ _).not_refused ((nesting_spelled_le s p).trans hm)

theorem spelled_agrees_note :
    let s : Schema := ⟨"Note", [⟨"id", .bytes 3, .reject⟩,
      ⟨"lines", .list (.byteList 33) 4, .reject⟩, ⟨"stamp", .bytes 32, .reject⟩]⟩
    let s' : Schema := ⟨"Note", [⟨"id", .vector (.uint 1) 3, .reject⟩,
      ⟨"lines", .list (.list (.uint 1) 33) 4, .reject⟩, ⟨"stamp", .bytes 32, .reject⟩]⟩
    let stamp : Value := .bytes (List.replicate 32 5)
    let r : Record := [.bytes [1, 2, 3], .list [.bytes [7, 8], .bytes []], stamp]
    let r' : Record := [.vector ([1, 2, 3].map Value.ofByte),
      .list [.list ([7, 8].map Value.ofByte), .list []], stamp]
    let data : Bytes := [1, 2, 3, 39, 0, 0, 0] ++ List.replicate 32 5 ++
      [8, 0, 0, 0, 10, 0, 0, 0, 7, 8]
    s.encode r = .ok data ∧ s'.encode r' = .ok data ∧ ∀ m, 2 ≤ m → s'.root m r' = s.root m r := by
  intro s s' stamp r r' data
  let p : Positions := fun way => way = [0] || way = [1, 0]
  have hs : s.spelled p = s' := rfl
  have hr : s.spelledRecord p r = r' := rfl
  have valid : s.Valid := by
    unfold s
    rfl
  have conforms : s.Conforms r := by
    unfold s r stamp
    rfl
  have bounds : ∀ k ∈ s.kind.within, k.bound ≤ maxSize := by
    unfold s
    decide
  have hencode : s.encode r = .ok data := by
    unfold s r stamp data
    rfl
  obtain ⟨-, -, hsame, hroot⟩ := spelled_agrees valid conforms bounds p
  rw [hs, hr] at hsame
  refine ⟨hencode, hsame.trans hencode, fun m hm => ?_⟩
  have hm' := (hroot m).2 hm
  rwa [hs, hr] at hm'

end Schema

end SszRecord

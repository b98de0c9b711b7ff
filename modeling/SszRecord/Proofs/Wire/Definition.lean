/-
The definition of the wire format.

`Kind.wire` writes a value down by the definition of the format alone.  A kind is of variable size
if a list occurs anywhere in it.  A region lists, for each of its parts in order, the value itself
or the number of bytes in front of its payload: those of the whole inline part and of the payloads
of earlier parts; the payloads follow in order.  Nothing is handed on from one part to the next,
and no size is computed but that of bytes that have been written.  `Kind.Exact` says that no number
is too large for the bytes that it is written in.

* `Wire.region_eq` : a region written with a running offset is the one that is defined;
* `Wire.take_drop_region` : the slot of a part begins behind the slots of the parts before it;
* `Schema.encode_eq_wire` : a record is encoded as it is defined.
-/
import Mathlib
import SszRecord.Proofs.Schema.Within
import SszRecord.Proofs.Wire.Layout

namespace SszRecord

namespace Kind

/-- Whether the kind itself leaves the number of bytes to the value. -/
def isOpen : Kind → Bool
  | .byteList _ => true
  | .list _ _ => true
  | _ => false

/-- Whether a kind with an open number of bytes occurs in the kind. -/
def isVariable (k : Kind) : Bool := k.within.any isOpen

theorem isFixedSize_eq_not_isVariable (k : Kind) : k.isFixedSize = !k.isVariable := by
  rw [isVariable, List.not_any_eq_all_not]
  induction k with
  | bytes n => rfl
  | uint w => rfl
  | byteList max => rfl
  | vector item n ih =>
    rw [isFixedSize, ih, within, List.all_cons]
    rfl
  | list item max => rfl
  | container name fields ih =>
    rw [isFixedSize, Bool.eq_iff_iff, allFixedSize_iff, List.all_eq_true, forall_within_container]
    constructor
    · intro h
      refine ⟨rfl, fun f hf => ?_⟩
      rw [← List.all_eq_true, ← ih f hf]
      exact h f hf
    · rintro ⟨-, h⟩ f hf
      rw [ih f hf, List.all_eq_true]
      exact h f hf

end Kind

namespace Wire

/-! ### Regions -/

/-- The number of bytes of the payloads among some parts. -/
def payloadSize (ps : List Part) : Nat :=
  (ps.map fun p => if p.isInline then 0 else p.bytes.length).sum

/-- What stands in the inline part of a region for its part at a position. -/
def slotAt (ps : List Part) (i : Nat) : Bytes :=
  match ps[i]? with
  | some p =>
    if p.isInline then p.bytes
    else Bytes.ofNat offsetSize (inlineSize ps + payloadSize (ps.take i))
  | none => []

/-- Whether every payload starts at a number that its slot has room for. -/
def Pointed (ps : List Part) : Prop := ∀ i (hi : i < ps.length), ps[i].isInline = false →
  inlineSize ps + payloadSize (ps.take i) < 256 ^ offsetSize

/-- A region by definition. -/
def assembled (ps : List Part) : Bytes :=
  (List.range ps.length).flatMap (slotAt ps) ++
    (ps.filter fun p => !p.isInline).flatMap Part.bytes

theorem slotAt_of_append (pre ps : List Part) (p : Part) :
    slotAt (pre ++ p :: ps) pre.length =
      if p.isInline then p.bytes
      else Bytes.ofNat offsetSize (inlineSize (pre ++ p :: ps) + payloadSize pre) := by
  have hat : (pre ++ p :: ps)[pre.length]? = some p := by simp
  rw [slotAt, hat, List.take_left]

theorem length_slotAt {ps : List Part} {i : Nat} (hi : i < ps.length) :
    (slotAt ps i).length = ps[i].slotSize := by
  rw [slotAt, List.getElem?_eq_getElem hi]
  cases h : ps[i].isInline with
  | true => simp only [h, if_true, Part.slotSize_of_inline h]
  | false => simp only [h, Bool.false_eq_true, if_false, Part.slotSize_of_payload h,
      Bytes.length_ofNat]

/-- A running offset has always come as far as the payloads before it reach. -/
theorem slots_eq (pre ps : List Part) :
    slots (inlineSize (pre ++ ps) + payloadSize pre) ps =
      (List.range' pre.length ps.length).flatMap (slotAt (pre ++ ps)) := by
  induction ps generalizing pre with
  | nil => rfl
  | cons p ps ih =>
    have hpre : pre ++ p :: ps = (pre ++ [p]) ++ ps := by simp
    have hsize : payloadSize (pre ++ [p]) =
        payloadSize pre + if p.isInline then 0 else p.bytes.length := by simp [payloadSize]
    have hrest := ih (pre ++ [p])
    rw [← hpre, hsize, List.length_append, List.length_singleton] at hrest
    rw [List.length_cons, List.range'_succ, List.flatMap_cons, slotAt_of_append, ← hrest, slots]
    cases p.isInline with
    | true => rfl
    | false => simp only [Bool.false_eq_true, if_false, Nat.add_assoc]

theorem flatten_payloads (ps : List Part) :
    (payloads ps).flatten = (ps.filter fun p => !p.isInline).flatMap Part.bytes := by
  induction ps with
  | nil => rfl
  | cons p ps ih =>
    rw [payloads]
    cases h : p.isInline with
    | true => simp [h, ih]
    | false => simp [h, ih]

/-- **A region that is written is the one that is defined.** -/
theorem region_eq (ps : List Part) : region ps = assembled ps := by
  have h := slots_eq [] ps
  rw [List.nil_append] at h
  rw [region, assembled, flatten_payloads, List.range_eq_range']
  exact congrArg (· ++ _) h

/-- The payload of a part starts behind the payloads of the parts before it. -/
theorem mem_starts {ps : List Part} {i : Nat} (hi : i < ps.length) (h : ps[i].isInline = false)
    (base : Nat) : base + payloadSize (ps.take i) ∈ starts base (payloads ps) := by
  induction ps generalizing i base with
  | nil => cases hi
  | cons p ps ih =>
    cases i with
    | zero =>
      rw [List.getElem_cons_zero] at h
      rw [payloads, h]
      exact List.mem_cons_self
    | succ i =>
      rw [List.getElem_cons_succ] at h
      have hsize : payloadSize ((p :: ps).take (i + 1)) =
          (if p.isInline then 0 else p.bytes.length) + payloadSize (ps.take i) := rfl
      rw [hsize, payloads]
      cases p.isInline with
      | true =>
        rw [if_pos rfl, if_pos rfl, Nat.zero_add]
        exact ih _ h base
      | false =>
        rw [if_neg Bool.false_ne_true, if_neg Bool.false_ne_true, ← Nat.add_assoc]
        exact List.mem_cons_of_mem _ (ih _ h (base + p.bytes.length))

theorem pointed_of_placeable {ps : List Part} (h : Placeable ps) : Pointed ps := by
  intro i hi hinline
  exact Nat.lt_succ_of_le (h _ (mem_starts hi hinline (inlineSize ps)))

/-- **The slot of a part begins behind the slots of the parts before it.** -/
theorem take_drop_region {ps : List Part} {i : Nat} (hi : i < ps.length) :
    ((region ps).drop (inlineSize (ps.take i))).take ps[i].slotSize = slotAt ps i := by
  have hlengths : ((List.range ps.length).map (slotAt ps)).map List.length =
      ps.map Part.slotSize := by
    refine List.ext_getElem (by simp) fun j hj hj' => ?_
    rw [List.length_map] at hj'
    simp only [List.getElem_map, List.getElem_range, length_slotAt hj']
  have hsum : inlineSize (ps.take i) =
      ((((List.range ps.length).map (slotAt ps)).map List.length).take i).sum := by
    rw [hlengths, inlineSize, List.map_take]
  have hle : inlineSize (ps.take i) ≤ ((List.range ps.length).flatMap (slotAt ps)).length := by
    rw [hsum, List.flatMap, List.length_flatten]
    exact List.Sublist.sum_le_sum (List.take_sublist _ _) fun _ _ => Nat.zero_le _
  rw [region_eq, assembled, List.drop_append_of_le_length hle, List.flatMap, hsum,
    List.drop_sum_flatten, List.drop_eq_getElem_cons (by simpa using hi), List.flatten_cons,
    List.getElem_map, List.getElem_range, List.append_assoc]
  exact List.take_left' (length_slotAt hi)

end Wire

namespace Kind

/-! ### Values -/

mutual

/-- The bytes of a value by definition. -/
def wire : Kind → Value → Bytes
  | .uint w, .uint u => Bytes.ofNat w u.toNat
  | .vector item _, .vector items =>
    if item.isVariable then Wire.assembled (items.map fun v => ⟨false, item.wire v⟩)
    else items.flatMap fun v => item.wire v
  | .list item _, .list items =>
    if item.isVariable then Wire.assembled (items.map fun v => ⟨false, item.wire v⟩)
    else items.flatMap fun v => item.wire v
  | .container _ fields, .container values => Wire.assembled (wireParts fields values)
  | _, .bytes b => b
  | _, _ => []

/-- The values of fields as parts of the region of their container. -/
def wireParts : List (Field Kind) → List Value → List Wire.Part
  | ⟨_, kind, _⟩ :: fields, value :: values =>
    ⟨!kind.isVariable, kind.wire value⟩ :: wireParts fields values
  | _, _ => []

end

/-- The values whose integers and offsets, at any depth, have room in the bytes they are written in,
so that no byte of a number is dropped. -/
inductive Exact : Kind → Value → Prop
  | bytes {n : Nat} {b : Bytes} : Exact (.bytes n) (.bytes b)
  | uint {w : Nat} {u : UInt256} (room : u.toNat < 256 ^ w) : Exact (.uint w) (.uint u)
  | byteList {max : Nat} {b : Bytes} : Exact (.byteList max) (.bytes b)
  | vector {item : Kind} {n : Nat} {items : List Value}
      (pointed : item.isVariable = true → Wire.Pointed (items.map fun v => ⟨false, item.wire v⟩))
      (each : ∀ v ∈ items, Exact item v) : Exact (.vector item n) (.vector items)
  | list {item : Kind} {max : Nat} {items : List Value}
      (pointed : item.isVariable = true → Wire.Pointed (items.map fun v => ⟨false, item.wire v⟩))
      (each : ∀ v ∈ items, Exact item v) : Exact (.list item max) (.list items)
  | container {name : String} {fields : List (Field Kind)} {values : List Value}
      (pointed : Wire.Pointed (wireParts fields values))
      (each : ∀ p ∈ fields.zip values, Exact p.1.kind p.2) :
      Exact (.container name fields) (.container values)

theorem region_of_items {item : Kind} {items : List Value}
    (ih : ∀ v ∈ items, item.layout v = item.wire v) :
    Wire.region (items.map fun v => ⟨item.isFixedSize, item.layout v⟩) =
      if item.isVariable then Wire.assembled (items.map fun v => ⟨false, item.wire v⟩)
      else items.flatMap fun v => item.wire v := by
  have hparts : (items.map fun v => (⟨item.isFixedSize, item.layout v⟩ : Wire.Part)) =
      items.map fun v => ⟨!item.isVariable, item.wire v⟩ := by
    refine List.map_congr_left fun v hv => ?_
    rw [ih v hv, isFixedSize_eq_not_isVariable]
  rw [hparts]
  cases item.isVariable with
  | true => exact Wire.region_eq _
  | false =>
    -- items of fixed size leave no slots
    have hinline : ∀ p ∈ items.map fun v => (⟨true, item.wire v⟩ : Wire.Part),
        p.isInline = true := List.forall_mem_map.2 fun _ _ => rfl
    have hregion := (Wire.region_of_inline hinline).1
    rw [List.map_map] at hregion
    exact hregion

theorem parts_eq_wireParts {fields : List (Field Kind)}
    (ih : ∀ f ∈ fields, ∀ v, f.kind.layout v = f.kind.wire v) (values : List Value) :
    parts fields values = wireParts fields values := by
  induction fields generalizing values with
  | nil => rfl
  | cons f fields ihfields =>
    obtain ⟨hf, hfields⟩ := List.forall_mem_cons.1 ih
    cases values with
    | nil => rfl
    | cons v values =>
      rw [parts, wireParts, hf v, isFixedSize_eq_not_isVariable, ihfields hfields values]

theorem layout_eq_wire (k : Kind) (v : Value) : k.layout v = k.wire v := by
  induction k generalizing v with
  | bytes n => cases v <;> rfl
  | uint w => cases v <;> rfl
  | byteList max => cases v <;> rfl
  | vector item n ih =>
    cases v with
    | vector items =>
      rw [layout, wire]
      exact region_of_items fun v _ => ih v
    | _ => rfl
  | list item max ih =>
    cases v with
    | list items =>
      rw [layout, wire]
      exact region_of_items fun v _ => ih v
    | _ => rfl
  | container name fields ih =>
    cases v with
    | container values => rw [layout, wire, parts_eq_wireParts ih, Wire.region_eq]
    | _ => rfl

theorem pointed_of_items {item : Kind} {items : List Value}
    (h : Wire.Placeable (items.map item.part)) (hvariable : item.isVariable = true) :
    Wire.Pointed (items.map fun v => ⟨false, item.wire v⟩) := by
  have hparts : items.map item.part = items.map fun v => ⟨false, item.wire v⟩ := by
    refine List.map_congr_left fun v _ => ?_
    rw [part, isFixedSize_eq_not_isVariable, hvariable, layout_eq_wire]
    rfl
  exact Wire.pointed_of_placeable (hparts ▸ h)

/-- What is encoded is not cut short. -/
theorem exact_of_placed {k : Kind} {v : Value} (h : k.Holds v) (hplaced : k.Placed v) :
    k.Exact v := by
  induction h with
  | bytes => exact .bytes
  | uint _ fits => exact .uint ((UInt256.fitsWidth_iff _ _).1 fits)
  | byteList => exact .byteList
  | vector _ _ _ _ ih =>
    obtain ⟨hregion, heach⟩ := hplaced
    exact .vector (pointed_of_items hregion) fun v hv => ih v hv (heach v hv)
  | list _ _ _ ih =>
    obtain ⟨hregion, heach⟩ := hplaced
    exact .list (pointed_of_items hregion) fun v hv => ih v hv (heach v hv)
  | @container name fields values _ length _ ih =>
    obtain ⟨hregion, heach⟩ := hplaced
    rw [parts_eq_wireParts fun f _ v => layout_eq_wire f.kind v] at hregion
    rw [fieldsPlaced_iff length] at heach
    exact .container (Wire.pointed_of_placeable hregion) fun p hp =>
      ih p hp (List.forall₂_zip heach hp)

/-- The inline part of a container is divided by the sizes that its fields have in it. -/
theorem inlineSize_take_parts {fields : List (Field Kind)} {values : List Value}
    (h : FieldsHold fields values) (i : Nat) :
    Wire.inlineSize ((parts fields values).take i) =
      ((fields.take i).map fun f => f.kind.inlineSize).sum := by
  have shape := congrArg (fun l => (l.map fun n : Option Nat => n.getD offsetSize).take i)
    (shape_parts h)
  simp only [List.map_map] at shape
  rw [Wire.inlineSize, List.map_take, List.map_take]
  exact congrArg List.sum shape.symm

end Kind

namespace Schema

/-- **A record is encoded as it is defined**, with every number written in full, and the slot of a
field begins where the sizes of the fields before it say, whatever the values are. -/
theorem encode_eq_wire {s : Schema} {r : Record} {data : Bytes} (h : s.encode r = .ok data) :
    data = s.kind.wire (.container r) ∧ s.kind.Exact (.container r) ∧
      ∀ i (hi : i < s.fields.length),
        (data.drop ((s.fields.take i).map fun f => f.kind.inlineSize).sum).take
          s.fields[i].kind.inlineSize = Wire.slotAt (Kind.wireParts s.fields r) i := by
  obtain ⟨hr, hplaced, rfl⟩ := encode_eq_ok.1 h
  have hholds := holds_iff.2 hr
  obtain ⟨-, hfields⟩ := Kind.holds_container.1 hholds
  refine ⟨Kind.layout_eq_wire _ _, Kind.exact_of_placed hholds hplaced, fun i hi => ?_⟩
  have shape := Kind.shape_parts hfields
  have hlen := congrArg List.length shape
  rw [List.length_map, List.length_map] at hlen
  have hsize : s.fields[i].kind.inlineSize =
      (Kind.parts s.fields r)[i].slotSize := by
    have := congrArg (fun l => (l[i]?).map fun n : Option Nat => n.getD offsetSize) shape
    simpa [List.getElem?_eq_getElem, hi, hlen ▸ hi, Kind.inlineSize, Wire.Part.slotSize] using this
  rw [← Kind.inlineSize_take_parts hfields, hsize,
    ← Kind.parts_eq_wireParts fun f _ v => Kind.layout_eq_wire f.kind v]
  exact Wire.take_drop_region (hlen ▸ hi)

theorem encode_eq_wire_nested :
    let inner : Kind :=
      .container "Inner" [⟨"tag", .uint 1, .reject⟩, ⟨"data", .byteList 8, .reject⟩]
    let s : Schema := ⟨"Outer", [⟨"head", .uint 2, .reject⟩, ⟨"inner", inner, .reject⟩,
      ⟨"names", .list (.byteList 3) 4, .reject⟩]⟩
    let r : Record := [.uint (UInt256.ofNat 7), .container [.uint (UInt256.ofNat 9),
      .bytes [171, 205]], .list [.bytes [1], .bytes []]]
    let data : Bytes := [7, 0, 10, 0, 0, 0, 17, 0, 0, 0, 9, 5, 0, 0, 0, 171, 205,
      8, 0, 0, 0, 9, 0, 0, 0, 1]
    s.encode r = .ok data ∧ data = s.kind.wire (.container r) ∧ s.kind.Exact (.container r) ∧
      (data.drop 6).take 4 = Wire.slotAt (Kind.wireParts s.fields r) 2 := by
  intro inner s r data
  have h : s.encode r = .ok data := by
    unfold s r data inner
    rfl
  obtain ⟨hwire, hexact, hslot⟩ := encode_eq_wire h
  exact ⟨h, hwire, hexact, hslot 2 (by decide)⟩

end Schema

end SszRecord

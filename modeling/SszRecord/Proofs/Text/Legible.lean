/-
What a tree tells of its record.

The object of a container keeps one member for each key, the last one that is given
(`Json.collect_eq_iff`).  So the value of a field whose key comes again behind it is not seen in
the tree, and it is lost unless the kind of the field has one value only.  `Kind.isLegible` decides
whether nothing is lost, and it decides this exactly: different records of an accepted schema have
different trees if and only if the schema is legible (`Schema.toTree_injective_iff`).  Schemas whose
containers have distinct keys are, but validation lets others pass, and two records of them may be
written as the same tree (`Schema.toTree_not_injective`).
-/
import Mathlib
import SszRecord.Proofs.Json.Objects
import SszRecord.Proofs.Text.Conformance
import SszRecord.Proofs.UInt256.Bytes

namespace SszRecord

namespace Kind

/-! ### Kinds that lose nothing -/

mutual

/-- Whether a value that fits is known once its tree is; or without its tree, if this is not
seen. -/
def isLegible : (seen : Bool) → Kind → Bool
  | seen, .bytes _ => seen
  | seen, .uint _ => seen
  | seen, .byteList max => seen || max == 0
  | seen, .vector item _ => item.isLegible seen
  | seen, .list item max => max == 0 || seen && item.isLegible seen
  | seen, .container _ fields => allLegible seen fields

/-- Whether the values of fields are known once the object of their container is: a field is not
seen there if its key is given again. -/
def allLegible : (seen : Bool) → List (Field Kind) → Bool
  | _, [] => true
  | seen, ⟨key, kind, _⟩ :: rest =>
    kind.isLegible (seen && decide (key ∉ rest.map Field.key)) && allLegible seen rest

end

/-- Values that fit are the same if their trees are, or in any case if these are not seen. -/
def Legible (seen : Bool) (k : Kind) : Prop :=
  ∀ v v', k.Fits v → k.Fits v' → (seen = true → k.toTree v = k.toTree v') → v = v'

/-- Values of fields are the same if the members that their container keeps are. -/
def FieldsLegible (seen : Bool) (fields : List (Field Kind)) : Prop :=
  ∀ vs vs' ms ms', FieldsFit fields vs → FieldsFit fields vs' →
    toMembers fields vs = .ok ms → toMembers fields vs' = .ok ms' →
      (seen = true → Json.latest ms = Json.latest ms') → vs = vs'

theorem fits_replicate {item : Kind} {v : Value} (hv : item.Fits v) (n : Nat) :
    (vector item n).Fits (.vector (List.replicate n v)) := by
  refine .vector List.length_replicate fun w hw => ?_
  rw [List.eq_of_mem_replicate hw]
  exact hv

theorem Sound.exists_fits {k : Kind} (sound : k.Sound) : ∃ v, k.Fits v := by
  induction sound with
  | @bytes n _ => exact ⟨.bytes (List.replicate n 0), .bytes List.length_replicate⟩
  | @uint w _ =>
    refine ⟨.uint ⟨0, 0, 0, 0⟩, .uint ((UInt256.fitsWidth_iff _ _).2 ?_)⟩
    exact Nat.pow_pos (by decide)
  | byteList => exact ⟨.bytes [], .byteList (Nat.zero_le _)⟩
  | @vector item n _ _ ih =>
    obtain ⟨v, hv⟩ := ih
    exact ⟨_, fits_replicate hv n⟩
  | list _ _ => exact ⟨.list [], .list (Nat.zero_le _) (List.forall_mem_nil _)⟩
  | container _ _ ih =>
    obtain ⟨values, hvalues⟩ := exists_forall₂ ih
    exact ⟨.container values, fits_container.2 hvalues⟩

/-- A kind of several values that are told apart by their trees is legible if these are seen. -/
theorem legible_iff_seen {k : Kind} {v v' : Value} (told : k.Legible true) (hv : k.Fits v)
    (hv' : k.Fits v') (hne : v ≠ v') (seen : Bool) : seen = true ↔ k.Legible seen := by
  cases seen with
  | false =>
    refine ⟨fun h => absurd h Bool.false_ne_true, fun h => absurd (h v v' hv hv' ?_) hne⟩
    exact fun h => absurd h Bool.false_ne_true
  | true => exact ⟨fun _ => told, fun _ => rfl⟩

theorem eq_of_toTree_bytes {b b' : Bytes}
    (same : (Except.ok (Json.string (Hex.toText b)) : Except CodecError Json) =
      .ok (.string (Hex.toText b'))) : Value.bytes b = .bytes b' :=
  congrArg _ (Hex.toText_injective (Json.string.inj (Except.ok.inj same)))

theorem legible_bytes {n : Nat} (pos : 0 < n) (seen : Bool) :
    seen = true ↔ (bytes n).Legible seen := by
  have hfits (d : UInt8) : (bytes n).Fits (.bytes (List.replicate n d)) :=
    .bytes List.length_replicate
  refine legible_iff_seen (fun v v' hv hv' same => ?_) (hfits 0) (hfits 1) (fun h => ?_) seen
  · cases hv
    cases hv'
    exact eq_of_toTree_bytes (same rfl)
  · have hdigit := (List.replicate_right_inj (Nat.pos_iff_ne_zero.1 pos)).1 (Value.bytes.inj h)
    exact absurd hdigit (by decide)

theorem legible_uint {w : Nat} (width : w ∈ uintWidths) (seen : Bool) :
    seen = true ↔ (uint w).Legible seen := by
  have hfits (u : UInt256) (hu : u.toNat ≤ 1) : (uint w).Fits (.uint u) := by
    refine .uint ((UInt256.fitsWidth_iff _ _).2 ?_)
    fin_cases width <;> omega
  refine legible_iff_seen (fun v v' hv hv' same => ?_) (hfits ⟨0, 0, 0, 0⟩ (by decide))
    (hfits ⟨1, 0, 0, 0⟩ (by decide)) (fun h => ?_) seen
  · cases hv
    cases hv'
    have htext := same rfl
    rw [toTree, toTree] at htext
    exact congrArg _ (UInt256.toDecimal_injective (Json.string.inj (Except.ok.inj htext)))
  · cases h

/-- Byte strings of no bytes are all the same. -/
theorem legible_byteList {max : Nat} (seen : Bool) :
    seen = true ∨ max = 0 ↔ (byteList max).Legible seen := by
  by_cases hmax : max = 0
  · subst hmax
    refine ⟨fun _ v v' hv hv' _ => ?_, fun _ => .inr rfl⟩
    cases hv with
    | byteList length =>
      cases hv' with
      | byteList length' =>
        rw [List.eq_nil_of_length_eq_zero (Nat.le_zero.1 length),
          List.eq_nil_of_length_eq_zero (Nat.le_zero.1 length')]
  · have hempty : (byteList max).Fits (.bytes []) := .byteList (Nat.zero_le _)
    have hzero : (byteList max).Fits (.bytes [0]) := .byteList (Nat.pos_iff_ne_zero.2 hmax)
    rw [or_iff_left hmax]
    refine legible_iff_seen (fun v v' hv hv' same => ?_) hempty hzero (fun h => ?_) seen
    · cases hv
      cases hv'
      exact eq_of_toTree_bytes (same rfl)
    · cases h

/-! ### Items -/

section Items

variable {item : Kind} {seen : Bool} {items items' : List Value}

/-- Items of one number are the same if their trees are. -/
theorem Legible.eq_of_items (h : item.Legible seen) (hitems : ∀ v ∈ items, item.Fits v)
    (hitems' : ∀ v ∈ items', item.Fits v) (length : items.length = items'.length)
    (same : seen = true → mapItems (fun v => item.toTree v) items =
      mapItems (fun v => item.toTree v) items') : items = items' := by
  cases seen with
  | false =>
    -- the kind has one value only, so that lists of one length are the same
    refine List.ext_getElem length fun i hi hi' => ?_
    refine h _ _ (hitems _ (List.getElem_mem hi)) (hitems' _ (List.getElem_mem hi')) fun h => ?_
    exact absurd h Bool.false_ne_true
  | true =>
    obtain ⟨trees, htrees⟩ := exists_mapItems fun v hv => (exists_written (hitems v hv)).1
    refine mapItems_injective (g := id) htrees ((same rfl).symm.trans htrees) rfl ?_
    intro v hv v' hv' t _ t' _ ht ht' heq
    refine h v v' (hitems v hv) (hitems' v' hv') fun _ => ?_
    rw [ht, ht']
    exact congrArg _ heq

theorem legible_vector {n : Nat} (pos : 0 < n) :
    (vector item n).Legible seen ↔ item.Legible seen := by
  constructor
  · intro h v v' hv hv' same
    have heq := h _ _ (fits_replicate hv n) (fits_replicate hv' n) fun hseen => by
      rw [toTree, toTree, mapItems_replicate_congr (same hseen)]
    exact (List.replicate_right_inj (Nat.pos_iff_ne_zero.1 pos)).1 (Value.vector.inj heq)
  · intro h v v' hv hv' same
    cases hv with
    | vector length each =>
      cases hv' with
      | vector length' each' =>
        refine congrArg _ (h.eq_of_items each each' (length.trans length'.symm) fun hseen => ?_)
        have hsame := same hseen
        rw [toTree, toTree] at hsame
        exact (bind_ok_inj fun _ _ => Json.array.inj).1 hsame

theorem legible_list {max : Nat} (inhabited : ∃ v, item.Fits v) :
    (list item max).Legible seen ↔ max = 0 ∨ seen = true ∧ item.Legible seen := by
  constructor
  · intro h
    have hfits {v : Value} (hv : item.Fits v) (hmax : max ≠ 0) : (list item max).Fits (.list [v]) :=
      .list (Nat.pos_iff_ne_zero.2 hmax) (List.forall_mem_singleton.2 hv)
    refine or_iff_not_imp_left.2 fun hmax => ⟨?_, fun v v' hv hv' same => ?_⟩
    · -- a list of no items and a list of one item are told apart by their trees alone
      by_contra hseen
      obtain ⟨v, hv⟩ := inhabited
      have heq := h (.list []) _ (.list (Nat.zero_le _) (List.forall_mem_nil _)) (hfits hv hmax)
        fun h => absurd h hseen
      cases heq
    · have heq := h _ _ (hfits hv hmax) (hfits hv' hmax) fun hseen => by
        simp only [toTree, mapItems, same hseen]
      exact List.head_eq_of_cons_eq (Value.list.inj heq)
  · intro h v v' hv hv' same
    cases hv with
    | list length each =>
      cases hv' with
      | @list _ _ items' length' each' =>
        rcases h with rfl | ⟨rfl, h⟩
        · rw [List.eq_nil_of_length_eq_zero (Nat.le_zero.1 length),
            List.eq_nil_of_length_eq_zero (Nat.le_zero.1 length')]
        · have hsame := same rfl
          rw [toTree, toTree] at hsame
          replace hsame := (bind_ok_inj fun _ _ => Json.array.inj).1 hsame
          refine congrArg _ (h.eq_of_items each each' ?_ fun _ => hsame)
          obtain ⟨trees, htrees⟩ := exists_mapItems fun v hv => (exists_written (each v hv)).1
          have htrees' := hsame.symm.trans htrees
          rw [mapItems_eq_ok] at htrees htrees'
          exact htrees.length_eq.trans htrees'.length_eq.symm

end Items

/-! ### Fields -/

theorem toMembers_cons_eq_ok {f : Field Kind} {fields : List (Field Kind)} {v : Value}
    {vs : List Value} {ms : List (String × Json)} :
    toMembers (f :: fields) (v :: vs) = .ok ms ↔
      ∃ t, f.kind.toTree v = .ok t ∧ ∃ rest, toMembers fields vs = .ok rest ∧
        (f.key, t) :: rest = ms := by
  simp only [toMembers, bind_eq_ok, pure_eq_ok, Except.ok.injEq]

theorem keys_toMembers {fields : List (Field Kind)} {vs : List Value}
    {ms : List (String × Json)} (length : fields.length = vs.length)
    (h : toMembers fields vs = .ok ms) : ms.map Prod.fst = fields.map Field.key := by
  induction fields generalizing vs ms with
  | nil =>
    cases h
    rfl
  | cons f fields ih =>
    cases vs with
    | nil => cases length
    | cons v vs =>
      obtain ⟨t, -, rest, hrest, rfl⟩ := toMembers_cons_eq_ok.1 h
      rw [List.map_cons, List.map_cons, ih (Nat.succ.inj length) hrest]

theorem exists_toMembers {fields : List (Field Kind)} {vs : List Value}
    (h : FieldsFit fields vs) : ∃ ms, toMembers fields vs = .ok ms := by
  have hfits : (container "" fields).Fits (.container vs) := fits_container.2 h
  obtain ⟨⟨t, ht⟩, -⟩ := exists_written hfits
  rw [toTree, bind_eq_ok] at ht
  obtain ⟨ms, hms, -⟩ := ht
  exact ⟨ms, hms⟩

/-- A field is seen if its key is not given again behind it, and the fields behind it are seen as
they are by themselves. -/
theorem fieldsLegible_cons {seen : Bool} {f : Field Kind} {fields : List (Field Kind)}
    (inhabited : ∃ v, f.kind.Fits v) (inhabiteds : ∃ vs, FieldsFit fields vs) :
    FieldsLegible seen (f :: fields) ↔
      f.kind.Legible (seen && decide (f.key ∉ fields.map Field.key)) ∧
        FieldsLegible seen fields := by
  have hkeys {vs : List Value} {ms : List (String × Json)} (hvs : FieldsFit fields vs)
      (hms : toMembers fields vs = .ok ms) := keys_toMembers hvs.length_eq hms
  constructor
  · intro h
    refine ⟨fun v v' hv hv' same => ?_, fun vs vs' ms ms' hvs hvs' hms hms' same => ?_⟩
    · -- the same values of the other fields complete both values to records
      obtain ⟨vs, hvs⟩ := inhabiteds
      obtain ⟨ms, hms⟩ := exists_toMembers hvs
      obtain ⟨⟨t, ht⟩, -⟩ := exists_written hv
      obtain ⟨⟨t', ht'⟩, -⟩ := exists_written hv'
      have heq := h (v :: vs) (v' :: vs) _ _ (.cons hv hvs) (.cons hv' hvs)
        (toMembers_cons_eq_ok.2 ⟨t, ht, ms, hms, rfl⟩)
        (toMembers_cons_eq_ok.2 ⟨t', ht', ms, hms, rfl⟩) fun hseen => ?_
      · exact List.head_eq_of_cons_eq heq
      · refine (Json.latest_cons_eq_iff rfl).2 ⟨fun hnew => ?_, rfl⟩
        rw [hkeys hvs hms] at hnew
        have hsame := same (by rw [hseen, decide_eq_true hnew]; rfl)
        rwa [ht, ht', Except.ok.injEq] at hsame
    · obtain ⟨v, hv⟩ := inhabited
      obtain ⟨⟨t, ht⟩, -⟩ := exists_written hv
      have heq := h (v :: vs) (v :: vs') _ _ (.cons hv hvs) (.cons hv hvs')
        (toMembers_cons_eq_ok.2 ⟨t, ht, ms, hms, rfl⟩)
        (toMembers_cons_eq_ok.2 ⟨t, ht, ms', hms', rfl⟩) fun hseen => ?_
      · exact List.tail_eq_of_cons_eq heq
      · refine (Json.latest_cons_eq_iff ?_).2 ⟨fun _ => rfl, same hseen⟩
        rw [hkeys hvs hms, hkeys hvs' hms']
  · rintro ⟨hf, hfields⟩ _ _ _ _ (_ | ⟨hv, hvs⟩) (_ | ⟨hv', hvs'⟩) hms hms' same
    obtain ⟨t, ht, ms, hrest, rfl⟩ := toMembers_cons_eq_ok.1 hms
    obtain ⟨t', ht', ms', hrest', rfl⟩ := toMembers_cons_eq_ok.1 hms'
    have hsame (hseen : seen = true) := (Json.latest_cons_eq_iff (by
      rw [hkeys hvs hrest, hkeys hvs' hrest'])).1 (same hseen)
    congr 1
    · refine hf _ _ hv hv' fun hnew => ?_
      rw [Bool.and_eq_true, decide_eq_true_eq, ← hkeys hvs hrest] at hnew
      rw [ht, ht', (hsame hnew.1).1 hnew.2]
    · exact hfields _ _ _ _ hvs hvs' hrest hrest' fun hseen => (hsame hseen).2

theorem allLegible_iff {fields : List (Field Kind)} (sound : ∀ f ∈ fields, f.kind.Sound)
    (ih : ∀ f ∈ fields, ∀ seen, f.kind.isLegible seen = true ↔ f.kind.Legible seen)
    (seen : Bool) : allLegible seen fields = true ↔ FieldsLegible seen fields := by
  induction fields with
  | nil =>
    refine ⟨fun _ _ _ _ _ hvs hvs' _ _ _ => ?_, fun _ => rfl⟩
    cases hvs
    cases hvs'
    rfl
  | cons f fields ihfields =>
    obtain ⟨hf, hfields⟩ := List.forall_mem_cons.1 ih
    obtain ⟨hsound, sound⟩ := List.forall_mem_cons.1 sound
    rw [allLegible, Bool.and_eq_true, hf, ihfields sound hfields]
    exact (fieldsLegible_cons hsound.exists_fits
      (exists_forall₂ fun f hf => (sound f hf).exists_fits)).symm

theorem legible_container {seen : Bool} {name : String} {fields : List (Field Kind)} :
    (container name fields).Legible seen ↔ FieldsLegible seen fields := by
  -- both objects have the keys of the fields, and differ only in the values that they keep
  have hsame {vs vs' : List Value} {ms ms' : List (String × Json)} (hvs : FieldsFit fields vs)
      (hvs' : FieldsFit fields vs') (hms : toMembers fields vs = .ok ms)
      (hms' : toMembers fields vs' = .ok ms') :
      (container name fields).toTree (.container vs) =
        (container name fields).toTree (.container vs') ↔ Json.latest ms = Json.latest ms' := by
    rw [toTree, toTree, hms, hms', ← Json.collect_eq_iff]
    · exact ⟨fun h => Json.object.inj (Except.ok.inj h), fun h => congrArg _ (congrArg _ h)⟩
    · rw [keys_toMembers hvs.length_eq hms, keys_toMembers hvs'.length_eq hms']
  constructor
  · intro h vs vs' ms ms' hvs hvs' hms hms' same
    exact Value.container.inj (h _ _ (fits_container.2 hvs) (fits_container.2 hvs') fun hseen =>
      (hsame hvs hvs' hms hms').2 (same hseen))
  · intro h v v' hv hv' same
    cases v with
    | container vs =>
      cases v' with
      | container vs' =>
        rw [fits_container] at hv hv'
        obtain ⟨ms, hms⟩ := exists_toMembers hv
        obtain ⟨ms', hms'⟩ := exists_toMembers hv'
        exact congrArg _ (h vs vs' ms ms' hv hv' hms hms' fun hseen =>
          (hsame hv hv' hms hms').1 (same hseen))
      | _ => cases hv'
    | _ => cases hv

/-- **Legible kinds are those whose values are told apart by their trees**, among the kinds that are
sound. -/
theorem isLegible_iff {k : Kind} (sound : k.Sound) (seen : Bool) :
    k.isLegible seen = true ↔ k.Legible seen := by
  induction sound generalizing seen with
  | bytes pos => exact legible_bytes pos seen
  | uint width => exact legible_uint width seen
  | byteList =>
    rw [isLegible, Bool.or_eq_true, beq_iff_eq]
    exact legible_byteList seen
  | @vector item n pos _ ih => rw [isLegible, ih, legible_vector pos]
  | @list item max sound ih =>
    rw [isLegible, Bool.or_eq_true, Bool.and_eq_true, beq_iff_eq, ih,
      legible_list sound.exists_fits]
  | container _ sound ih => rw [isLegible, allLegible_iff sound ih, legible_container]

theorem allLegible_of_nodup {fields : List (Field Kind)}
    (distinct : (fields.map Field.key).Nodup)
    (h : ∀ f ∈ fields, f.kind.isLegible true = true) : allLegible true fields = true := by
  induction fields with
  | nil => rfl
  | cons f fields ih =>
    rw [List.map_cons, List.nodup_cons] at distinct
    obtain ⟨hf, hfields⟩ := List.forall_mem_cons.1 h
    rw [allLegible, decide_eq_true distinct.1, Bool.true_and, hf, ih distinct.2 hfields]
    rfl

/-- Nothing is lost if no container gives a key twice. -/
theorem isLegible_of_nodup {k : Kind} (distinct : ∀ k' ∈ k.within, k'.keys.Nodup) :
    k.isLegible true = true := by
  induction k with
  | bytes n => rfl
  | uint w => rfl
  | byteList max => rfl
  | vector item n ih =>
    rw [isLegible]
    exact ih (forall_within_vector.1 distinct).2
  | list item max ih =>
    rw [isLegible, ih (forall_within_list.1 distinct).2]
    exact Bool.or_true _
  | container name fields ih =>
    obtain ⟨hkeys, distinct⟩ := forall_within_container.1 distinct
    rw [isLegible]
    exact allLegible_of_nodup hkeys fun f hf => ih f hf (distinct f hf)

end Kind

namespace Schema

/-- **What is lost in a tree.**  Different records of an accepted schema have different trees if and
only if the schema is legible, and it is if no container gives a key twice. -/
theorem toTree_injective_iff {s : Schema} (valid : s.Valid) :
    ((∀ r r', s.Conforms r → s.Conforms r' → s.toTree r = s.toTree r' → r = r') ↔
      s.kind.isLegible true = true) ∧
      ((∀ k ∈ s.kind.within, k.keys.Nodup) → s.kind.isLegible true = true) := by
  refine ⟨?_, Kind.isLegible_of_nodup⟩
  rw [Kind.isLegible_iff (valid_iff.1 valid)]
  have htree {r : Record} (h : s.Conforms r) : s.toTree r = s.kind.toTree (.container r) := by
    rw [toTree, h, ok_bind]
  have hfits {r : Record} : s.Conforms r ↔ s.kind.Fits (.container r) :=
    conforms_iff.trans Kind.fits_container.symm
  constructor
  · intro h v v' hv hv' same
    cases v with
    | container r =>
      cases v' with
      | container r' =>
        refine congrArg _ (h r r' (hfits.2 hv) (hfits.2 hv') ?_)
        rw [htree (hfits.2 hv), htree (hfits.2 hv'), same rfl]
      | _ => cases hv'
    | _ => cases hv
  · intro h r r' hr hr' same
    rw [htree hr, htree hr'] at same
    exact Value.container.inj (h _ _ (hfits.1 hr) (hfits.1 hr') fun _ => same)

/-- A key that is given twice does no harm if the first of its values can only be the empty byte
string. -/
theorem toTree_injective_iff_empty :
    let s : Schema := ⟨"Twice", [⟨"a", .byteList 0, .reject⟩, ⟨"a", .uint 1, .reject⟩]⟩
    s.Valid ∧ ¬s.kind.keys.Nodup ∧ s.kind.isLegible true = true ∧
      ∀ r r', s.Conforms r → s.Conforms r' → s.toTree r = s.toTree r' → r = r' := by
  intro s
  have valid : s.Valid := rfl
  exact ⟨valid, by decide, rfl, (toTree_injective_iff valid).1.2 rfl⟩

/-- **A tree may tell less than its record.**  The schema is accepted and so are both records, but
the value of the second field takes the place of the first one. -/
theorem toTree_not_injective :
    let s : Schema := ⟨"Twice", [⟨"a", .uint 1, .reject⟩, ⟨"a", .uint 1, .reject⟩]⟩
    let r : Record := [.uint ⟨1, 0, 0, 0⟩, .uint ⟨2, 0, 0, 0⟩]
    let r' : Record := [.uint ⟨3, 0, 0, 0⟩, .uint ⟨2, 0, 0, 0⟩]
    s.Valid ∧ s.Conforms r ∧ s.Conforms r' ∧ r ≠ r' ∧
      s.toTree r = .ok (.object [("a", .string "2")]) ∧ s.toTree r' = s.toTree r := by
  intro s r r'
  refine ⟨rfl, rfl, rfl, ?_, rfl, rfl⟩
  unfold r r'
  intro h
  cases h

end Schema

end SszRecord

/-
What a root that is computed was computed from.

The items of a sequence are packed if they are integers and have roots of their own otherwise; the
fields of a container are worked through side by side with their values.  Both are steps over a
list, and what is known of such steps applies to them.

For every kind, `root_…_eq_ok` says which values have a root and what it is.
-/
import Mathlib
import SszRecord.Merkle.Root
import SszRecord.Proofs.Items
import SszRecord.Proofs.Nesting

namespace SszRecord.Kind

variable {α : Type} {nodes : Nodes α}

/-! ### Members -/

theorem checkLevel_eq (m n : Nat) : checkLevel m n = limited m n () := by
  rw [checkLevel]
  by_cases h : m < n
  · rw [if_pos h, limited_of_lt h]
  · rw [if_neg h, limited_of_le (Nat.le_of_not_lt h)]

theorem checkLevel_eq_ok {m n : Nat} : checkLevel m n = .ok () ↔ n ≤ m := by
  rw [checkLevel, refuse_eq_ok, Nat.not_lt]
  exact and_iff_left rfl

/-- An item is an integer, or its kind is not basic. -/
theorem uint_or_composite (k : Kind) : (∃ w, k = .uint w) ∨ k.isBasic = false := by
  cases k with
  | uint w => exact .inl ⟨w, rfl⟩
  | _ => exact .inr rfl

theorem itemsRoot_of_composite {item : Kind} (h : item.isBasic = false)
    (rootOf : Value → Except CodecError α) (bound : Nat) (items : List Value) :
    itemsRoot nodes item rootOf bound items =
      (mapItems rootOf items >>= fun roots => nodes.merkleize roots bound) := by
  cases item with
  | uint w => cases h
  | _ => rfl

theorem fieldRoots_eq (m depth : Nat) (fields : List (Field Kind)) (values : List Value) :
    fieldRoots nodes m fields depth values =
      mapItems (fun p => p.1.kind.root nodes m depth p.2) (fields.zip values) := by
  induction fields generalizing values with
  | nil => rfl
  | cons f fields ih =>
    cases values with
    | nil => rfl
    | cons v values => rw [fieldRoots, ih, List.zip_cons_cons, mapItems]

/-! ### Which values have a root -/

variable {m depth : Nat} {v : Value} {a : α}

theorem root_uint_eq_ok {w : Nat} :
    (uint w).root nodes m depth v = .ok a ↔
      ∃ u : UInt256, v = .uint u ∧ u.FitsWidth w ∧ nodes.leaf u.toDigest = a := by
  cases v with
  | uint u =>
    simp only [root, demand_eq_ok, Except.ok.injEq, Value.uint.injEq, exists_eq_left']
  | _ => exact ⟨nofun, nofun⟩

theorem root_bytes_eq_ok {n : Nat} :
    (bytes n).root nodes m depth v = .ok a ↔
      ∃ b : Bytes, v = .bytes b ∧ b.length = n ∧ nodes.merkleizeBytes b n = .ok a := by
  cases v with
  | bytes b => simp only [root, demand_eq_ok, Value.bytes.injEq, exists_eq_left']
  | _ => exact ⟨nofun, nofun⟩

theorem root_byteList_eq_ok {max : Nat} :
    (byteList max).root nodes m depth v = .ok a ↔
      ∃ b : Bytes, v = .bytes b ∧ b.length ≤ max ∧
        ∃ root, nodes.merkleizeBytes b max = .ok root ∧ nodes.mixInLength root b.length = a := by
  cases v with
  | bytes b =>
    simp only [root, demand_eq_ok, bind_eq_ok, pure_eq_ok, Except.ok.injEq, Value.bytes.injEq,
      exists_eq_left']
  | _ => exact ⟨nofun, nofun⟩

theorem root_vector_eq_ok {item : Kind} {n : Nat} :
    (vector item n).root nodes m depth v = .ok a ↔
      ∃ items, v = .vector items ∧ items.length = n ∧ depth + 1 ≤ m ∧
        itemsRoot nodes item (fun v => item.root nodes m (depth + 1) v) n items = .ok a := by
  cases v with
  | vector items =>
    simp only [root, demand_eq_ok, bind_eq_ok, Unique.exists_iff, PUnit.default_eq_unit,
      checkLevel_eq_ok, Value.vector.injEq, exists_eq_left']
  | _ => exact ⟨nofun, nofun⟩

theorem root_list_eq_ok {item : Kind} {max : Nat} :
    (list item max).root nodes m depth v = .ok a ↔
      ∃ items, v = .list items ∧ items.length ≤ max ∧ depth + 1 ≤ m ∧
        ∃ root, itemsRoot nodes item (fun v => item.root nodes m (depth + 1) v) max items =
          .ok root ∧ nodes.mixInLength root items.length = a := by
  cases v with
  | list items =>
    simp only [root, demand_eq_ok, bind_eq_ok, Unique.exists_iff, PUnit.default_eq_unit,
      checkLevel_eq_ok, pure_eq_ok, Except.ok.injEq, Value.list.injEq, exists_eq_left']
  | _ => exact ⟨nofun, nofun⟩

theorem root_container_eq_ok {name : String} {fields : List (Field Kind)} :
    (container name fields).root nodes m depth v = .ok a ↔
      ∃ values, v = .container values ∧ depth + 1 ≤ m ∧ values.length = fields.length ∧
        ∃ roots, fieldRoots nodes m fields (depth + 1) values = .ok roots ∧
          nodes.merkleize roots roots.length = .ok a := by
  cases v with
  | container values =>
    simp only [root, demand_eq_ok, bind_eq_ok, Unique.exists_iff, PUnit.default_eq_unit,
      checkLevel_eq_ok, Value.container.injEq, exists_eq_left']
  | _ => exact ⟨nofun, nofun⟩

end SszRecord.Kind

namespace SszRecord.Schema

theorem rootOver_eq_ok {α : Type} {nodes : Nodes α} {s : Schema} {m : Nat} {r : Record} {a : α} :
    s.rootOver nodes m r = .ok a ↔
      s.Valid ∧ r.length = s.fields.length ∧
        ∃ roots, Kind.fieldRoots nodes m s.fields 0 r = .ok roots ∧
          nodes.merkleize roots roots.length = .ok a := by
  simp only [rootOver, throw_eq_error, bind_eq_ok, demand_eq_ok, Unique.exists_iff,
    PUnit.default_eq_unit, Valid]

end SszRecord.Schema

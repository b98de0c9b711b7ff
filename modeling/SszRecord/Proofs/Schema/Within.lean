/-
The kinds inside a kind.

What is asked of a schema is often asked of every kind that occurs in it, at any depth:
`Kind.within` lists them.  Two numbers of a kind come up in such conditions, the number it is
declared with and the number of bytes that a full sequence of integers is packed into.
-/
import Mathlib
import SszRecord.Schema

namespace SszRecord.Kind

mutual

/-- The kinds inside a kind, itself included. -/
def within : Kind → List Kind
  | .bytes n => [.bytes n]
  | .uint w => [.uint w]
  | .byteList max => [.byteList max]
  | .vector item n => .vector item n :: item.within
  | .list item max => .list item max :: item.within
  | .container name fields => .container name fields :: withinFields fields

/-- The kinds inside the kinds of fields. -/
def withinFields : List (Field Kind) → List Kind
  | [] => []
  | ⟨_, kind, _⟩ :: fields => kind.within ++ withinFields fields

end

/-- The size, width, count, maximum or number of fields that a kind is declared with. -/
def bound : Kind → Nat
  | .bytes n => n
  | .uint w => w
  | .byteList max => max
  | .vector _ n => n
  | .list _ max => max
  | .container _ fields => fields.length

/-- The number of bytes that a full sequence of integers is packed into. -/
def packedSize : Kind → Nat
  | .vector (.uint w) n => n * w
  | .list (.uint w) max => max * w
  | _ => 0

/-- A bound on the packed size of a sequence bounds what its integers, if it has integers, are packed
into. -/
theorem mul_le_of_vector {item : Kind} {n size : Nat} (h : (vector item n).packedSize ≤ size)
    (w : Nat) (hitem : item = .uint w) : n * w ≤ size := by
  subst hitem
  exact h

theorem mul_le_of_list {item : Kind} {max size : Nat} (h : (list item max).packedSize ≤ size)
    (w : Nat) (hitem : item = .uint w) : max * w ≤ size := by
  subst hitem
  exact h

theorem self_mem_within (k : Kind) : k ∈ k.within := by
  cases k <;> rw [within] <;> exact List.mem_cons_self

theorem mem_withinFields {k : Kind} {fields : List (Field Kind)} :
    k ∈ withinFields fields ↔ ∃ f ∈ fields, k ∈ f.kind.within := by
  induction fields with
  | nil => simp [withinFields]
  | cons f fields ih => rw [withinFields, List.mem_append, ih, List.exists_mem_cons_iff]

/-! ### What holds of every kind inside -/

variable {p : Kind → Prop}

theorem forall_within_vector {item : Kind} {n : Nat} :
    (∀ k ∈ (vector item n).within, p k) ↔ p (.vector item n) ∧ ∀ k ∈ item.within, p k := by
  rw [within, List.forall_mem_cons]

theorem forall_within_list {item : Kind} {max : Nat} :
    (∀ k ∈ (list item max).within, p k) ↔ p (.list item max) ∧ ∀ k ∈ item.within, p k := by
  rw [within, List.forall_mem_cons]

theorem forall_within_container {name : String} {fields : List (Field Kind)} :
    (∀ k ∈ (container name fields).within, p k) ↔
      p (.container name fields) ∧ ∀ f ∈ fields, ∀ k ∈ f.kind.within, p k := by
  simp only [within, List.forall_mem_cons, mem_withinFields]
  refine and_congr_right' ⟨fun h f hf k hk => h k ⟨f, hf, hk⟩, fun h k hk => ?_⟩
  obtain ⟨f, hf, hk⟩ := hk
  exact h f hf k hk

end SszRecord.Kind

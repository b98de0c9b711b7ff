/-
Nesting of values.

Decoding and hashing refuse what lies deeper than a limit.  `Value.nesting` counts the levels of a
value, and `limited m n a` is the answer `a` of an operation that needs `n` levels and has `m`.

* `limited_bind` : steps that follow one another need the larger number of levels;
* `limited_enter` : the members of a value lie one level below it;
* `mapItems_limited` : working through items needs the levels of the deepest one.
-/
import Mathlib
import SszRecord.Proofs.Items
import SszRecord.Value

namespace SszRecord

namespace Value

mutual

/-- The number of sequences and containers on the deepest path into a value, itself included. -/
def nesting : Value → Nat
  | .bytes _ => 0
  | .uint _ => 0
  | .vector items => deepest items + 1
  | .list items => deepest items + 1
  | .container values => deepest values + 1

/-- The nesting of the deepest of some values. -/
def deepest : List Value → Nat
  | [] => 0
  | v :: values => max v.nesting (deepest values)

end

end Value

theorem Value.deepest_eq_zero {values : List Value} (h : ∀ v ∈ values, v.nesting = 0) :
    Value.deepest values = 0 := by
  induction values with
  | nil => rfl
  | cons v values ih =>
    obtain ⟨hv, hvalues⟩ := List.forall_mem_cons.1 h
    rw [Value.deepest, hv, ih hvalues, Nat.max_self]

/-- The number of levels below a record. -/
def Record.nesting (r : Record) : Nat := Value.deepest r

variable {α β : Type} {m n k : Nat}

/-- The answer of an operation that needs `levels` of them, when there are `max`. -/
def limited (max levels : Nat) (a : α) : Except CodecError α :=
  if levels ≤ max then .ok a else .error (.nestingTooDeep max)

theorem limited_of_le (h : n ≤ m) (a : α) : limited m n a = .ok a := if_pos h

theorem limited_of_lt (h : m < n) (a : α) : limited m n a = .error (.nestingTooDeep m) :=
  if_neg (Nat.not_le.2 h)

theorem limited_eq_ok {a b : α} : limited m n a = .ok b ↔ n ≤ m ∧ a = b := by
  rw [limited, demand_eq_ok, Except.ok.injEq]

theorem limited_bind (a : α) (f : α → β) :
    (limited m n a >>= fun a => limited m k (f a)) = limited m (max n k) (f a) := by
  by_cases hn : n ≤ m
  · rw [limited_of_le hn, ok_bind]
    by_cases hk : k ≤ m
    · rw [limited_of_le hk, limited_of_le (max_le hn hk)]
    · rw [limited_of_lt (Nat.lt_of_not_le hk),
        limited_of_lt (lt_max_of_lt_right (Nat.lt_of_not_le hk))]
  · rw [limited_of_lt (Nat.lt_of_not_le hn),
      limited_of_lt (lt_max_of_lt_left (Nat.lt_of_not_le hn))]
    rfl

theorem limited_then {f : α → Except CodecError β} {a : α} {b : β} (h : f a = .ok b) :
    (limited m n a >>= f) = limited m n b := by
  by_cases hn : n ≤ m
  · rw [limited_of_le hn, limited_of_le hn, ok_bind, h]
  · rw [limited_of_lt (Nat.lt_of_not_le hn), limited_of_lt (Nat.lt_of_not_le hn)]
    rfl

theorem limited_map (a : α) (f : α → β) :
    (limited m n a >>= fun a => .ok (f a)) = limited m n (f a) :=
  limited_then rfl

/-- An operation on the members of a value goes one level down. -/
theorem limited_enter {x : Except CodecError α} {depth : Nat} {a : α}
    (h : depth + 1 ≤ m → x = limited m (depth + 1 + n) a) :
    (limited m (depth + 1) () >>= fun _ => x) = limited m (depth + (n + 1)) a := by
  -- a level below the limit is refused first, and then `a` would need more levels as well
  rw [Nat.add_comm n 1, ← Nat.add_assoc]
  by_cases hdepth : depth + 1 ≤ m
  · rw [limited_of_le hdepth, ok_bind, h hdepth]
  · rw [limited_of_lt (Nat.lt_of_not_le hdepth), limited_of_lt (by omega)]
    rfl

/-- Items are worked through with the levels of the deepest value among them, below `n` levels
around them. -/
theorem mapItems_limited {f : α → Except CodecError β} {g : α → β} (value : α → Value)
    {items : List α} (hn : n ≤ m)
    (h : ∀ a ∈ items, f a = limited m (n + (value a).nesting) (g a)) :
    mapItems f items = limited m (n + Value.deepest (items.map value)) (items.map g) := by
  induction items with
  | nil => exact (limited_of_le hn _).symm
  | cons a items ih =>
    obtain ⟨ha, hitems⟩ := List.forall_mem_cons.1 h
    rw [mapItems, ha, ih hitems, List.map_cons, Value.deepest, ← Nat.add_max_add_left]
    simp only [pure_eq_ok, limited_map]
    exact limited_bind (g a) fun b => b :: items.map g

end SszRecord

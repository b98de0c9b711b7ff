/-
Objects by their keys.

An object that is collected from members keeps one of them for each key.  It holds the value that
the key is given last (`member?_collect`), at the place of the first one, so that members with the
same keys make the same object if and only if the last values of all keys are the same
(`collect_eq_iff`).
-/
import Mathlib
import SszRecord.Json

namespace SszRecord.Json

variable {key : String} {members members' : List (String × Json)}

/-! ### Values of keys -/

theorem mem_of_member? {value : Json} (h : member? key members = some value) :
    (key, value) ∈ members := by
  induction members with
  | nil => cases h
  | cons m members ih =>
    rw [member?] at h
    split at h
    · rename_i hkey
      cases h
      exact hkey ▸ List.mem_cons_self
    · exact List.mem_cons_of_mem _ (ih h)

theorem member?_eq_none : member? key members = none ↔ key ∉ members.map Prod.fst := by
  induction members with
  | nil => simp [member?]
  | cons m rest ih =>
    rw [member?, List.map_cons, List.mem_cons, not_or]
    by_cases hm : m.1 = key
    · simp [hm]
    · rw [if_neg hm, ih]
      exact ⟨fun h => ⟨Ne.symm hm, h⟩, fun h => h.2⟩

theorem member?_setMember (key key' : String) (value : Json) (members : List (String × Json)) :
    member? key (setMember key' value members) =
      if key' = key then some value else member? key members := by
  induction members with
  | nil => rfl
  | cons m rest ih =>
    rw [setMember]
    by_cases hm : m.1 = key'
    · rw [if_pos hm, member?, member?, hm]
      by_cases hkey : key' = key
      · rw [if_pos hkey, if_pos hkey]
      · rw [if_neg hkey, if_neg hkey, if_neg hkey]
    · rw [if_neg hm, member?, member?, ih]
      by_cases hkey : m.1 = key
      · rw [if_pos hkey, if_pos hkey, if_neg fun h => hm (hkey.trans h.symm)]
      · rw [if_neg hkey, if_neg hkey]

/-- Members with distinct keys are told by the values of these keys. -/
theorem eq_of_member? (same : members.map Prod.fst = members'.map Prod.fst)
    (distinct : (members.map Prod.fst).Nodup)
    (h : ∀ key, member? key members = member? key members') : members = members' := by
  induction members generalizing members' with
  | nil => exact (List.map_eq_nil_iff.1 same.symm).symm
  | cons m rest ih =>
    cases members' with
    | nil => cases same
    | cons m' rest' =>
      obtain ⟨key, value⟩ := m
      obtain ⟨key', value'⟩ := m'
      rw [List.map_cons, List.map_cons, List.cons.injEq] at same
      rw [List.map_cons, List.nodup_cons] at distinct
      obtain ⟨rfl, same⟩ := same
      have hvalue := h key
      rw [member?, member?, if_pos rfl, if_pos rfl, Option.some_inj] at hvalue
      rw [hvalue, ih same distinct.2 fun k => ?_]
      by_cases hk : key = k
      · rw [member?_eq_none.2 (hk ▸ distinct.1), member?_eq_none.2 (hk ▸ same ▸ distinct.1)]
      · have hrest := h k
        rwa [member?, member?, if_neg hk, if_neg hk] at hrest

/-! ### Keys that are given again -/

/-- The members whose keys are not given again behind them. -/
def latest : List (String × Json) → List (String × Json)
  | [] => []
  | m :: rest => if m.1 ∈ rest.map Prod.fst then latest rest else m :: latest rest

theorem mem_keys_latest : key ∈ (latest members).map Prod.fst ↔ key ∈ members.map Prod.fst := by
  induction members with
  | nil => rfl
  | cons m rest ih =>
    rw [latest]
    by_cases hm : m.1 ∈ rest.map Prod.fst
    · rw [if_pos hm, ih, List.map_cons, List.mem_cons]
      refine ⟨.inr, fun h => ?_⟩
      rcases h with rfl | h
      · exact hm
      · exact h
    · rw [if_neg hm, List.map_cons, List.map_cons, List.mem_cons, List.mem_cons, ih]

theorem nodup_keys_latest (members : List (String × Json)) :
    ((latest members).map Prod.fst).Nodup := by
  induction members with
  | nil => exact List.nodup_nil
  | cons m rest ih =>
    rw [latest]
    by_cases hm : m.1 ∈ rest.map Prod.fst
    · rwa [if_pos hm]
    · rw [if_neg hm, List.map_cons, List.nodup_cons, mem_keys_latest]
      exact ⟨hm, ih⟩

theorem keys_latest_congr (h : members.map Prod.fst = members'.map Prod.fst) :
    (latest members).map Prod.fst = (latest members').map Prod.fst := by
  induction members generalizing members' with
  | nil => rw [List.map_eq_nil_iff.1 h.symm]
  | cons m rest ih =>
    cases members' with
    | nil => cases h
    | cons m' rest' =>
      rw [List.map_cons, List.map_cons, List.cons.injEq] at h
      rw [latest, latest, h.1, h.2]
      by_cases hm : m'.1 ∈ rest'.map Prod.fst
      · rw [if_pos hm, if_pos hm, ih h.2]
      · rw [if_neg hm, if_neg hm, List.map_cons, List.map_cons, h.1, ih h.2]

/-- An object holds the last value that a key is given. -/
theorem member?_collect (key : String) (members : List (String × Json)) :
    member? key (collect members) = member? key (latest members) := by
  -- by induction on the members to come, with any others done before: what comes later counts
  have hfold (done todo : List (String × Json)) :
      member? key (todo.foldl (fun acc m => setMember m.1 m.2 acc) done) =
        (member? key (latest todo)).or (member? key done) := by
    induction todo generalizing done with
    | nil => rfl
    | cons m todo ih =>
      rw [List.foldl_cons, ih, member?_setMember, latest]
      by_cases hm : m.1 ∈ todo.map Prod.fst
      · rw [if_pos hm]
        by_cases hkey : m.1 = key
        · obtain ⟨t, ht⟩ := Option.ne_none_iff_exists'.1
            (mt member?_eq_none.1 (not_not.2 (mem_keys_latest.2 (hkey ▸ hm))))
          rw [ht]
          rfl
        · rw [if_neg hkey]
      · rw [if_neg hm, member?]
        by_cases hkey : m.1 = key
        · rw [if_pos hkey, if_pos hkey, member?_eq_none.2 (mt mem_keys_latest.1 (hkey ▸ hm))]
          rfl
        · rw [if_neg hkey, if_neg hkey]
  exact (hfold [] members).trans (Option.or_none)

/-- The keys with one more, unless it is there. -/
def addKey (keys : List String) (key : String) : List String :=
  if key ∈ keys then keys else keys ++ [key]

theorem keys_setMember (key : String) (value : Json) (members : List (String × Json)) :
    (setMember key value members).map Prod.fst = addKey (members.map Prod.fst) key := by
  induction members with
  | nil => rfl
  | cons m rest ih =>
    rw [setMember, List.map_cons]
    by_cases hm : m.1 = key
    · rw [if_pos hm, addKey, if_pos (hm ▸ List.mem_cons_self), List.map_cons]
    · rw [if_neg hm, List.map_cons, ih, addKey, addKey]
      by_cases hkey : key ∈ rest.map Prod.fst
      · rw [if_pos hkey, if_pos (List.mem_cons_of_mem _ hkey)]
      · rw [if_neg hkey, if_neg, List.cons_append]
        rw [List.mem_cons, not_or]
        exact ⟨Ne.symm hm, hkey⟩

/-- The keys of an object are the keys of its members, each where it is given first. -/
theorem keys_collect (members : List (String × Json)) :
    (collect members).map Prod.fst = (members.map Prod.fst).foldl addKey [] := by
  rw [List.foldl_map]
  exact (List.foldl_hom (List.map Prod.fst) fun acc m => (keys_setMember m.1 m.2 acc).symm).symm

theorem nodup_keys_collect (members : List (String × Json)) :
    ((collect members).map Prod.fst).Nodup := by
  have hfold (done todo : List String) (h : done.Nodup) : (todo.foldl addKey done).Nodup := by
    induction todo generalizing done with
    | nil => exact h
    | cons key todo ih =>
      refine ih _ ?_
      rw [addKey]
      by_cases hkey : key ∈ done
      · rwa [if_pos hkey]
      · rw [if_neg hkey, ← List.concat_eq_append]
        exact h.concat hkey
  rw [keys_collect]
  exact hfold [] _ List.nodup_nil

/-- **Members with the same keys make the same object if and only if the last values of all keys are
the same.** -/
theorem collect_eq_iff (same : members.map Prod.fst = members'.map Prod.fst) :
    collect members = collect members' ↔ latest members = latest members' := by
  constructor
  · intro h
    refine eq_of_member? (keys_latest_congr same) (nodup_keys_latest members) fun key => ?_
    rw [← member?_collect, h, member?_collect]
  · intro h
    refine eq_of_member? ?_ (nodup_keys_collect members) fun key => ?_
    · rw [keys_collect, keys_collect, same]
    · rw [member?_collect, h, member?_collect]

/-- The value of a key that is given again does not matter. -/
theorem latest_cons_eq_iff {value value' : Json}
    (same : members.map Prod.fst = members'.map Prod.fst) :
    latest ((key, value) :: members) = latest ((key, value') :: members') ↔
      (key ∉ members.map Prod.fst → value = value') ∧ latest members = latest members' := by
  rw [latest, latest, ← same]
  by_cases hkey : key ∈ members.map Prod.fst
  · rw [if_pos hkey, if_pos hkey]
    exact ⟨fun h => ⟨fun hnew => absurd hkey hnew, h⟩, fun h => h.2⟩
  · rw [if_neg hkey, if_neg hkey, List.cons.injEq, Prod.mk.injEq]
    exact ⟨fun h => ⟨fun _ => h.1.2, h.2⟩, fun h => ⟨⟨rfl, h.1 hkey⟩, h.2⟩⟩

end SszRecord.Json

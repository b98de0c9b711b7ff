/-
Steps that may fail, one after another.

What a chain of steps answers is read off the steps: `bind_eq_ok` for two of them, and for the
steps over a list

* `mapItems_eq_ok` : all answers are there exactly when each item has its own;
* `mapItems_ok` : a step that answers `g a` on every item answers the mapped list;
* `mapItems_injective` : lists are told apart by their answers if items are;
* `checkItems_eq_ok` : a check passes on a list exactly when it passes on every item.

What they fail with is read off in the same way: `FailsWith P x` says that `P` holds of the error of
`x` if there is one.
-/
import Mathlib
import SszRecord.Items

namespace SszRecord

variable {ε α β : Type}

/-- Two steps succeed exactly when the first one does and the second one does on its answer. -/
theorem bind_eq_ok {x : Except ε α} {f : α → Except ε β} {b : β} :
    (x >>= f) = .ok b ↔ ∃ a, x = .ok a ∧ f a = .ok b := by
  cases x with
  | error e => exact ⟨nofun, nofun⟩
  | ok a =>
    constructor
    · intro h
      exact ⟨a, rfl, h⟩
    · rintro ⟨a', ha, hb⟩
      cases ha
      exact hb

/-- Two steps fail exactly when the first one does or the second one does on its answer. -/
theorem bind_eq_error {x : Except ε α} {f : α → Except ε β} {e : ε} :
    (x >>= f) = .error e ↔ x = .error e ∨ ∃ a, x = .ok a ∧ f a = .error e := by
  cases x with
  | error e' =>
    constructor
    · intro h
      cases h
      exact .inl rfl
    · rintro (h | ⟨a, ha, -⟩)
      · cases h
        rfl
      · cases ha
  | ok a =>
    constructor
    · intro h
      exact .inr ⟨a, rfl, h⟩
    · rintro (h | ⟨a', ha, h⟩)
      · cases h
      · cases ha
        exact h

@[simp] theorem ok_bind (a : α) (f : α → Except ε β) : (Except.ok a >>= f) = f a := rfl

@[simp] theorem error_bind (e : ε) (f : α → Except ε β) :
    ((Except.error e : Except ε α) >>= f) = .error e := rfl

@[simp] theorem throw_eq_error (e : ε) : (throw e : Except ε α) = .error e := rfl

@[simp] theorem pure_eq_ok (a : α) : (pure a : Except ε α) = .ok a := rfl

/-- What is done to an answer in the end does not make answers the same. -/
theorem bind_ok_inj {f : α → β} (inj : Function.Injective f) {x y : Except ε α} :
    (x >>= fun a => .ok (f a)) = (y >>= fun a => .ok (f a)) ↔ x = y := by
  constructor
  · intro h
    cases x with
    | error e =>
      cases y with
      | error e' => exact congrArg _ (Except.error.inj h)
      | ok b => cases h
    | ok a =>
      cases y with
      | error e' => cases h
      | ok b => exact congrArg _ (inj (Except.ok.inj h))
  · rintro rfl
    rfl

/-- What passes a refusal is what does not meet its condition. -/
theorem refuse_eq_ok {p : Prop} [Decidable p] {e : CodecError} {x : Except CodecError α} {a : α} :
    (if p then .error e else x) = .ok a ↔ ¬p ∧ x = .ok a := by
  by_cases hp : p
  · rw [if_pos hp]
    exact ⟨nofun, fun h => absurd hp h.1⟩
  · rw [if_neg hp]
    exact ⟨fun h => ⟨hp, h⟩, fun h => h.2⟩

/-- What passes a demand is what meets its condition. -/
theorem demand_eq_ok {p : Prop} [Decidable p] {e : CodecError} {x : Except CodecError α} {a : α} :
    (if p then x else .error e) = .ok a ↔ p ∧ x = .ok a := by
  by_cases hp : p
  · rw [if_pos hp]
    exact ⟨fun h => ⟨hp, h⟩, fun h => h.2⟩
  · rw [if_neg hp]
    exact ⟨nofun, fun h => absurd h.1 hp⟩

/-! ### Steps over a list -/

theorem mapItems_eq_ok {f : α → Except CodecError β} {items : List α} {bs : List β} :
    mapItems f items = .ok bs ↔ List.Forall₂ (fun a b => f a = .ok b) items bs := by
  induction items generalizing bs with
  | nil =>
    rw [mapItems, List.forall₂_nil_left_iff]
    constructor
    · intro h
      cases h
      rfl
    · rintro rfl
      rfl
  | cons a items ih =>
    rw [mapItems, bind_eq_ok, List.forall₂_cons_left_iff]
    constructor
    · rintro ⟨b, hb, h⟩
      obtain ⟨bs', hbs', h⟩ := bind_eq_ok.1 h
      cases h
      exact ⟨b, bs', hb, ih.1 hbs', rfl⟩
    · rintro ⟨b, bs', hb, hbs', rfl⟩
      exact ⟨b, hb, bind_eq_ok.2 ⟨bs', ih.2 hbs', rfl⟩⟩

theorem mapItems_congr {f g : α → Except CodecError β} {items : List α}
    (h : ∀ a ∈ items, f a = g a) : mapItems f items = mapItems g items := by
  induction items with
  | nil => rfl
  | cons a items ih =>
    obtain ⟨ha, hitems⟩ := List.forall_mem_cons.1 h
    rw [mapItems, mapItems, ha, ih hitems]

theorem mapItems_map {γ : Type} (f : β → Except CodecError γ) (g : α → β) (items : List α) :
    mapItems f (items.map g) = mapItems (fun a => f (g a)) items := by
  induction items with
  | nil => rfl
  | cons a items ih => rw [List.map_cons, mapItems, mapItems, ih]

theorem mapItems_replicate_congr {f : α → Except CodecError β} {a a' : α}
    (h : f a = f a') (n : Nat) :
    mapItems f (List.replicate n a) = mapItems f (List.replicate n a') := by
  induction n with
  | zero => rfl
  | succ n ih => rw [List.replicate_succ, List.replicate_succ, mapItems, mapItems, h, ih]

theorem mapItems_ok {f : α → Except CodecError β} {g : α → β} {items : List α}
    (h : ∀ a ∈ items, f a = .ok (g a)) : mapItems f items = .ok (items.map g) := by
  rw [mapItems_eq_ok, List.forall₂_map_right_iff, List.forall₂_same]
  exact h

/-- As `mapItems_ok`, for a step that succeeds only on some items. -/
theorem mapItems_iff {f : α → Except CodecError β} {g : α → β} {P : α → Prop} {items : List α}
    {bs : List β} (h : ∀ a ∈ items, ∀ b, f a = .ok b ↔ P a ∧ g a = b) :
    mapItems f items = .ok bs ↔ (∀ a ∈ items, P a) ∧ items.map g = bs := by
  rw [mapItems_eq_ok]
  induction items generalizing bs with
  | nil => simp [eq_comm]
  | cons a items ih =>
    obtain ⟨ha, hitems⟩ := List.forall_mem_cons.1 h
    rw [List.forall₂_cons_left_iff, List.forall_mem_cons, List.map_cons]
    constructor
    · rintro ⟨b, bs, hb, hbs, rfl⟩
      obtain ⟨hP, rfl⟩ := (ha b).1 hb
      obtain ⟨hPs, rfl⟩ := (ih hitems).1 hbs
      exact ⟨⟨hP, hPs⟩, rfl⟩
    · rintro ⟨⟨hP, hPs⟩, rfl⟩
      exact ⟨g a, items.map g, (ha _).2 ⟨hP, rfl⟩, (ih hitems).2 ⟨hPs, rfl⟩, rfl⟩

/-- A step that tells items apart by its answers tells lists apart by theirs, if the answers are
told apart by `g`. -/
theorem mapItems_injective {γ : Type} {f : α → Except CodecError β} {g : β → γ}
    {items items' : List α} {bs bs' : List β} (h : mapItems f items = .ok bs)
    (h' : mapItems f items' = .ok bs') (same : bs.map g = bs'.map g)
    (inj : ∀ a ∈ items, ∀ a' ∈ items', ∀ b ∈ bs, ∀ b' ∈ bs',
      f a = .ok b → f a' = .ok b' → g b = g b' → a = a') : items = items' := by
  rw [mapItems_eq_ok] at h h'
  induction h generalizing items' bs' with
  | nil =>
    cases h' with
    | nil => rfl
    | cons => cases same
  | @cons a b items bs hb _ ih =>
    cases h' with
    | nil => cases same
    | @cons a' b' items' bs' hb' h' =>
      rw [List.map_cons, List.map_cons, List.cons.injEq] at same
      obtain rfl : a = a' := inj a List.mem_cons_self a' List.mem_cons_self b List.mem_cons_self b'
        List.mem_cons_self hb hb' same.1
      rw [ih h' same.2 fun a ha a' ha' b hb b' hb' => inj a (List.mem_cons_of_mem _ ha) a'
        (List.mem_cons_of_mem _ ha') b (List.mem_cons_of_mem _ hb) b' (List.mem_cons_of_mem _ hb')]

theorem checkItems_eq_ok {check : Nat → α → Except CodecError Unit} {P : α → Prop}
    (h : ∀ i a, check i a = .ok () ↔ P a) {items : List α} {i : Nat} :
    checkItems check i items = .ok () ↔ ∀ a ∈ items, P a := by
  induction items generalizing i with
  | nil => simp [checkItems]
  | cons a items ih =>
    rw [checkItems, bind_eq_ok, List.forall_mem_cons]
    constructor
    · rintro ⟨⟨⟩, ha, hrest⟩
      exact ⟨(h i a).1 ha, ih.1 hrest⟩
    · rintro ⟨ha, hrest⟩
      exact ⟨(), (h i a).2 ha, ih.2 hrest⟩

/-! ### Errors -/

/-- The error of a step, if it fails, satisfies a predicate. -/
def FailsWith (P : CodecError → Prop) (x : Except CodecError α) : Prop := ∀ e, x = .error e → P e

section Errors

variable {P : CodecError → Prop}

theorem failsWith_ok (a : α) : FailsWith P (.ok a : Except CodecError α) := nofun

theorem failsWith_error {e : CodecError} (h : P e) :
    FailsWith P (.error e : Except CodecError α) := by
  intro e' he
  cases he
  exact h

theorem failsWith_bind {x : Except CodecError α} {f : α → Except CodecError β}
    (hx : FailsWith P x) (hf : ∀ a, x = .ok a → FailsWith P (f a)) : FailsWith P (x >>= f) := by
  cases x with
  | error e => exact failsWith_error (hx e rfl)
  | ok a => exact hf a rfl

theorem failsWith_refuse {p : Prop} [Decidable p] {e : CodecError} {x : Except CodecError α}
    (he : p → P e) (hx : ¬p → FailsWith P x) : FailsWith P (if p then .error e else x) := by
  by_cases hp : p
  · rw [if_pos hp]
    exact failsWith_error (he hp)
  · rw [if_neg hp]
    exact hx hp

theorem failsWith_mapItems {f : α → Except CodecError β} {items : List α}
    (h : ∀ a ∈ items, FailsWith P (f a)) : FailsWith P (mapItems f items) := by
  induction items with
  | nil => exact failsWith_ok _
  | cons a items ih =>
    obtain ⟨ha, hitems⟩ := List.forall_mem_cons.1 h
    rw [mapItems]
    refine failsWith_bind ha fun b _ => failsWith_bind (ih hitems) fun bs _ => ?_
    exact failsWith_ok _

theorem failsWith_checkItems {check : Nat → α → Except CodecError Unit} {items : List α}
    (h : ∀ a ∈ items, ∀ i, FailsWith P (check i a)) (i : Nat) :
    FailsWith P (checkItems check i items) := by
  induction items generalizing i with
  | nil => exact failsWith_ok ()
  | cons a items ih =>
    obtain ⟨ha, hitems⟩ := List.forall_mem_cons.1 h
    rw [checkItems]
    exact failsWith_bind (ha i) fun _ _ => ih hitems (i + 1)

end Errors

/-! ### Lists side by side -/

/-- In two lists side by side every item on the left has a partner. -/
theorem exists_of_forall₂ {R : α → β → Prop} {as : List α} {bs : List β}
    (h : List.Forall₂ R as bs) : ∀ a ∈ as, ∃ b, R a b := by
  induction h with
  | nil => exact List.forall_mem_nil _
  | cons hab _ ih => exact List.forall_mem_cons.2 ⟨⟨_, hab⟩, ih⟩

/-- If each item on the left has a partner, then there is a list of partners. -/
theorem exists_forall₂ {R : α → β → Prop} {as : List α} (h : ∀ a ∈ as, ∃ b, R a b) :
    ∃ bs, List.Forall₂ R as bs := by
  induction as with
  | nil => exact ⟨[], .nil⟩
  | cons a as ih =>
    obtain ⟨⟨b, hb⟩, has⟩ := List.forall_mem_cons.1 h
    obtain ⟨bs, hbs⟩ := ih has
    exact ⟨b :: bs, .cons hb hbs⟩

theorem forall_of_forall₂ {R : α → β → Prop} {p : β → Prop} {as : List α} {bs : List β}
    (h : List.Forall₂ R as bs) (hp : ∀ a b, R a b → p b) : ∀ b ∈ bs, p b := by
  induction h with
  | nil => exact List.forall_mem_nil _
  | cons hab _ ih => exact List.forall_mem_cons.2 ⟨hp _ _ hab, ih⟩

theorem forall₂_imp_of_mem {R S : α → β → Prop} {as : List α} {bs : List β}
    (h : List.Forall₂ R as bs) (himp : ∀ a ∈ as, ∀ b, R a b → S a b) : List.Forall₂ S as bs := by
  induction h with
  | nil => exact .nil
  | cons hab _ ih =>
    obtain ⟨ha, has⟩ := List.forall_mem_cons.1 himp
    exact .cons (ha _ hab) (ih has)

theorem exists_mapItems {f : α → Except CodecError β} {items : List α}
    (h : ∀ a ∈ items, ∃ b, f a = .ok b) : ∃ bs, mapItems f items = .ok bs := by
  obtain ⟨bs, hbs⟩ := exists_forall₂ h
  exact ⟨bs, mapItems_eq_ok.2 hbs⟩

end SszRecord

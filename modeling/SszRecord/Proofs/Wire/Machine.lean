/-
What machines decode.

Decoding on a machine takes the steps of decoding with the sizes that the machine calculates.  As
far as its sizes are right, so is what it answers: `Attempt.Agrees` sets an attempt next to the
answer that it should give, and every pass over a region that makes no more of a size than
comparing it keeps to its answer.

* `Machine.Reaches` : a size that a machine can handle;
* `Kind.decodeOn_agrees` : a machine that can handle all sizes of a kind decodes it rightly;
* `Schema.decodeOn_exact` : with sizes of any size nothing breaks off, so that no span reaches out
  of the region that it is cut from;
* `Schema.decodeOn_of_sized` : words are enough for a schema whose sizes are words;
* `Schema.decodeOn_checked` : words that are checked never give a wrong answer, whatever the sizes.
-/
import Mathlib
import SszRecord.Proofs.Schema.Overflow
import SszRecord.Proofs.Wire.Cuts

namespace SszRecord

/-! ### Attempts and answers -/

namespace Attempt

variable {α β γ : Type} {must : Prop}

/-- An attempt gives the answer, or breaks off where no answer is due. -/
def Agrees (must : Prop) (x : Attempt β) (y : Except CodecError β) : Prop :=
  x.run = some y ∨ x.run = none ∧ ¬must

theorem agrees_ok (b : β) : Agrees must (pure b) (.ok b) := .inl rfl

theorem agrees_error (e : CodecError) : Agrees must (throw e : Attempt β) (.error e) := .inl rfl

/-- A step that does not depend on a machine. -/
theorem agrees_lift (y : Except CodecError β) : Agrees must (liftM y) y := .inl rfl

theorem Agrees.bind {x : Attempt β} {y : Except CodecError β} {f : β → Attempt γ}
    {g : β → Except CodecError γ} (hx : Agrees must x y)
    (hf : ∀ b, y = .ok b → Agrees must (f b) (g b)) : Agrees must (x >>= f) (y >>= g) := by
  rw [Agrees, ExceptT.run_bind]
  obtain hx | ⟨hx, hmust⟩ := hx
  · rw [hx]
    cases y with
    | error e => exact .inl rfl
    | ok b => exact hf b rfl
  · rw [hx]
    exact .inr ⟨rfl, hmust⟩

theorem agrees_refuse {p : Prop} [Decidable p] {e : CodecError} {x : Attempt β}
    {y : Except CodecError β} (h : ¬p → Agrees must x y) :
    Agrees must (if p then throw e else x) (if p then .error e else y) := by
  by_cases hp : p
  · rw [if_pos hp, if_pos hp]
    exact agrees_error e
  · rw [if_neg hp, if_neg hp]
    exact h hp

theorem agrees_mapM {f : α → Attempt γ} {g : β → Except CodecError γ} {h : α → β} {as : List α}
    (hf : ∀ a ∈ as, Agrees must (f a) (g (h a))) :
    Agrees must (as.mapM f) (mapItems g (as.map h)) := by
  induction as with
  | nil => exact agrees_ok []
  | cons a as ih =>
    obtain ⟨ha, has⟩ := List.forall_mem_cons.1 hf
    rw [List.mapM_cons, List.map_cons, mapItems]
    exact ha.bind fun c _ => (ih has).bind fun cs _ => agrees_ok (c :: cs)

/-- An attempt that has to give its answer gives it. -/
theorem Agrees.run_eq {x : Attempt β} {y : Except CodecError β} (h : Agrees must x y) (due : must) :
    x.run = some y := h.resolve_right fun hbroken => hbroken.2 due

end Attempt

open Attempt

/-! ### Sizes on a machine -/

namespace Machine

variable {α β : Type} {M : Machine α} {form : Nat → Option α} {must : Prop}

/-- A size that a machine can handle.  The forms of it and of all smaller numbers are compared as
these numbers, and it has a form if answers are due. -/
structure Reaches (M : Machine α) (form : Nat → Option α) (must : Prop) (n : Nat) : Prop where
  toNat : ∀ {m a}, m ≤ n → form m = some a → M.toNat a = m
  form : must → form n ≠ none

/-- A machine that calculates as well as its forms go, that can handle offsets, and that has room
for as many items as there are bytes. -/
structure Runs (M : Machine α) (form : Nat → Option α) : Prop where
  calculates : M.arith.Calculates form
  offsets : M.Reaches form True Wire.maxOffset
  room : ∀ {items length}, items ≤ length → M.hasRoom items length = true

/-- A machine can handle all sizes of the kinds inside a kind. -/
def Fits (M : Machine α) (form : Nat → Option α) (must : Prop) (k : Kind) : Prop :=
  ∀ k' ∈ k.within, form k'.bound ≠ none ∧ ∀ n ∈ k'.sizes, M.Reaches form must n

theorem Reaches.mono {m n : Nat} (calculates : M.arith.Calculates form)
    (h : M.Reaches form must n) (hle : m ≤ n) : M.Reaches form must m :=
  ⟨fun hm => h.toNat (hm.trans hle), fun due hnone => h.form due (calculates.mono hle hnone)⟩

theorem Runs.form_offset (runs : M.Runs form) {n : Nat} (h : n ≤ Wire.maxOffset) :
    form n ≠ none :=
  fun hnone => runs.offsets.form trivial (runs.calculates.mono h hnone)

theorem Runs.reaches_offset (runs : M.Runs form) {n : Nat} (h : n ≤ Wire.maxOffset) :
    M.Reaches form must n :=
  ⟨fun hm => runs.offsets.toNat (hm.trans h), fun _ => runs.form_offset h⟩

theorem Runs.form_slot (runs : M.Runs form) : form offsetSize ≠ none :=
  runs.form_offset (by decide)

theorem Runs.form_eq (runs : M.Runs form) {n : Nat} (h : form n ≠ none) :
    form n = some (M.arith.ofNat n) := Kind.form_ofNat runs.calculates h

theorem Runs.form_zero (runs : M.Runs form) : form 0 = some (M.arith.ofNat 0) :=
  runs.form_eq (runs.form_offset (Nat.zero_le _))

/-- A slot further on. -/
theorem Runs.add_slot (runs : M.Runs form) {start : Nat} {a : α} (ha : form start = some a) :
    M.arith.add a (M.arith.ofNat offsetSize) = form (start + offsetSize) :=
  runs.calculates.add ha (runs.form_eq runs.form_slot)

theorem Runs.mul_slot (runs : M.Runs form) {count : Nat} (hcount : form count ≠ none) :
    M.arith.mul (M.arith.ofNat count) (M.arith.ofNat offsetSize) = form (count * offsetSize) :=
  runs.calculates.mul (runs.form_eq hcount) (runs.form_eq runs.form_slot)

section Fitting

variable {k : Kind} (fits : M.Fits form must k)

include fits

theorem Fits.sizeIn_eq (runs : M.Runs form) (sound : k.Sound) :
    k.sizeIn M.arith = k.fixedSize?.mapM form :=
  Kind.sizeIn_eq runs.calculates runs.form_slot sound fun k' inside => (fits k' inside).1

theorem Fits.reaches_fixedSize {n : Nat} (h : k.fixedSize? = some n) : M.Reaches form must n :=
  (fits k k.self_mem_within).2 n (Kind.fixedSize_mem_sizes h)

theorem Fits.reaches_partSize {n : Nat} (h : k.partSize? = some n) : M.Reaches form must n :=
  (fits k k.self_mem_within).2 n (Kind.partSize_mem_sizes h)

end Fitting

/-- A calculation of a size that the machine can handle. -/
theorem agrees_size {n : Nat} {size : Option α} {f : α → Attempt β} {y : Except CodecError β}
    (hsize : size = form n) (reaches : M.Reaches form must n)
    (hf : ∀ a, form n = some a → M.toNat a = n → Agrees must (f a) y) :
    Agrees must (liftM size >>= f) y := by
  subst hsize
  cases h : form n with
  | none => exact .inr ⟨rfl, fun due => reaches.form due h⟩
  | some a => exact hf a h (reaches.toNat le_rfl h)

/-- The same of the size of a kind that has one. -/
theorem agrees_size? {n : Nat} {size : Option (Option α)} {f : Option α → Attempt β}
    {y : Except CodecError β} (hsize : size = (some n).mapM form)
    (reaches : M.Reaches form must n)
    (hf : ∀ a, form n = some a → M.toNat a = n → Agrees must (f (some a)) y) :
    Agrees must (liftM size >>= f) y := by
  have hbind : (liftM size >>= f : Attempt β) = liftM (form n) >>= fun a => f (some a) := by
    rw [hsize, Option.mapM_some]
    cases form n <;> rfl
  rw [hbind]
  exact agrees_size rfl reaches hf

/-! ### Passes over a region -/

theorem divide_eq {size : Nat} (pos : 0 < size) (region : Bytes) :
    divide size region = some (Wire.packedSpans size 0 (region.length / size)) :=
  if_neg (Nat.pos_iff_ne_zero.1 pos)

section Passes

variable (runs : M.Runs form) {region : Bytes}

include runs

theorem readOffset_agrees {start : Nat} {a : α} (ha : form start = some a)
    (reaches : M.Reaches form must (start + offsetSize)) :
    Agrees must (M.readOffset region a) (Wire.readOffset region start) := by
  rw [readOffset, Wire.readOffset]
  refine agrees_size (runs.add_slot ha) reaches fun stop _ hstop => ?_
  have hstart : M.toNat a = start := reaches.toNat (Nat.le_add_right _ _) ha
  rw [hstop, hstart]
  refine agrees_refuse fun hlen => ?_
  have hslice : (⟨start, start + offsetSize⟩ : Wire.Span).slice? region = some _ :=
    Wire.slice?_eq ⟨Nat.le_add_right _ _, Nat.le_of_not_lt hlen⟩
  rw [hslice, Wire.Span.slice, Nat.add_sub_cancel_left]
  exact agrees_ok _

theorem readSlots_agrees {fields : List (Field Kind)}
    (sizes : ∀ f ∈ fields, f.kind.sizeIn M.arith = f.kind.fixedSize?.mapM form) {isz start : Nat}
    {a : α} {isFirst : Bool} (ha : form start = some a)
    (reaches : M.Reaches form must (start + Kind.fixedPartSize fields)) :
    Agrees must (M.readSlots region isz a isFirst fields)
      (Wire.readSlots region isz start isFirst fields) := by
  induction fields generalizing start a isFirst with
  | nil => exact agrees_ok []
  | cons f fields ih =>
    obtain ⟨hf, hfields⟩ := List.forall_mem_cons.1 sizes
    have reaches' {n : Nat} (hn : n ≤ start + Kind.fixedPartSize (f :: fields)) :
        M.Reaches form must n := reaches.mono runs.calculates hn
    rw [Kind.fixedPartSize] at reaches'
    rw [readSlots, Wire.readSlots]
    have hstart : M.toNat a = start := (reaches' (Nat.le_add_right _ _)).toNat le_rfl ha
    cases hsize : f.kind.fixedSize? with
    | some n =>
      rw [hsize] at hf
      rw [hsize, Option.getD_some] at reaches'
      refine agrees_size? hf (reaches' (by omega)) fun size hn _ => ?_
      refine agrees_size (runs.calculates.add ha hn) (reaches' (by omega))
        fun stop hstop' hstop => ?_
      refine (ih hfields hstop' (reaches' (by omega))).bind fun slots _ => ?_
      rw [hstart, hstop]
      exact agrees_ok _
    | none =>
      rw [hsize] at hf
      rw [hsize, Option.getD_none] at reaches'
      rw [hf]
      refine (readOffset_agrees runs ha (reaches' (by omega))).bind fun o _ => ?_
      refine agrees_refuse fun _ => ?_
      refine agrees_size (runs.add_slot ha) (reaches' (by omega)) fun stop hstop' _ => ?_
      exact (ih hfields hstop' (reaches' (by omega))).bind fun slots _ => agrees_ok _

theorem containerSpans_agrees {name : String} {fields : List (Field Kind)}
    (sound : (Kind.container name fields).Sound) (fits : M.Fits form must (.container name fields)) :
    Agrees must (M.containerSpans fields region) (Wire.containerSpans fields region) := by
  have sizes : ∀ f ∈ fields, f.kind.sizeIn M.arith = f.kind.fixedSize?.mapM form := by
    intro f hf
    have hfits : M.Fits form must f.kind := (Kind.forall_within_container.1 fits).2 f hf
    exact hfits.sizeIn_eq runs ((Kind.sound_container.1 sound).2 f hf)
  have reaches : M.Reaches form must (Kind.fixedPartSize fields) := fits.reaches_partSize rfl
  rw [containerSpans, Wire.containerSpans]
  refine agrees_size (Kind.addSlots_zero runs.calculates runs.form_slot sizes) reaches
    fun inline _ hinline => ?_
  rw [hinline]
  refine agrees_refuse fun _ => agrees_refuse fun _ => ?_
  refine Agrees.bind (readSlots_agrees runs sizes runs.form_zero ?_) fun slots _ => ?_
  · rwa [Nat.zero_add]
  · exact (agrees_lift _).bind fun payloads _ => agrees_lift _

theorem readTable_agrees {start count : Nat} {a : α} (ha : form start = some a)
    (reaches : M.Reaches form must (start + count * offsetSize)) :
    Agrees must (M.readTable region a count) (Wire.readTable region start count) := by
  induction count generalizing start a with
  | zero => exact agrees_ok []
  | succ count ih =>
    rw [Nat.succ_mul] at reaches
    have reaches' : M.Reaches form must (start + offsetSize) :=
      reaches.mono runs.calculates (by omega)
    rw [readTable, Wire.readTable]
    refine (readOffset_agrees runs ha reaches').bind fun o _ => ?_
    refine agrees_size (runs.add_slot ha) reaches' fun stop hstop _ => ?_
    exact (ih hstop (reaches.mono runs.calculates (by omega))).bind fun rest _ => agrees_ok _

theorem reserve_agrees {items : Nat} {f : Unit → Attempt β} {y : Except CodecError β}
    (h : items ≤ region.length) (hf : Agrees must (f ()) y) :
    Agrees must (M.reserve items region >>= f) y := by
  rw [reserve, runs.room h]
  exact hf

theorem itemSpans_agrees {count : Nat} (hcount : form count ≠ none)
    (reaches : M.Reaches form must (count * offsetSize)) :
    Agrees must (M.itemSpans region count) (Wire.itemSpans region count) := by
  rw [itemSpans, Wire.itemSpans]
  by_cases hzero : count = 0
  · rw [if_pos hzero, if_pos hzero]
    exact agrees_ok []
  · rw [if_neg hzero, if_neg hzero]
    refine agrees_size (runs.mul_slot hcount) reaches fun table _ htable => ?_
    rw [htable]
    refine agrees_refuse fun hlen => ?_
    -- a table has four bytes for each item
    refine reserve_agrees runs (by rw [offsetSize] at hlen; omega) ?_
    rw [← Nat.zero_add (count * offsetSize)] at reaches
    refine (readTable_agrees runs runs.form_zero reaches).bind fun offsets _ => ?_
    exact agrees_refuse fun _ => agrees_lift _

theorem packedCuts_agrees {item : Kind} {size : Nat} (hsize : item.fixedSize? = some size)
    (pos : 0 < size) {a : α} (ha : form size = some a) (reaches : M.Reaches form must size)
    {count : Wire.Count} (total : ∀ n, count = .exactly n →
      form n ≠ none ∧ M.Reaches form must (size * n)) :
    Agrees must (M.packedCuts a count region) (Wire.itemCuts item count region) := by
  have htoNat : M.toNat a = size := reaches.toNat le_rfl ha
  cases count with
  | exactly n =>
    obtain ⟨hn, htotal⟩ := total n rfl
    rw [packedCuts, Wire.itemCuts_exactly_of_size hsize]
    refine agrees_size (runs.calculates.mul ha (runs.form_eq hn)) htotal fun total _ htotal => ?_
    rw [htotal]
    refine (agrees_lift _).bind fun _ hlen => ?_
    have hlen := Wire.exactLength_eq_ok.1 hlen
    refine reserve_agrees runs ?_ ?_
    · rw [hlen]
      exact Nat.le_mul_of_pos_left n pos
    · rw [htoNat, divide_eq pos, hlen, Nat.mul_div_cancel_left n pos]
      exact agrees_ok _
  | atMost max =>
    rw [packedCuts, Wire.itemCuts_atMost_of_size hsize, htoNat, divide_eq pos]
    show Agrees must (if _ then _ else _) _
    refine agrees_refuse fun _ => ?_
    rw [Wire.length_packedSpans]
    refine agrees_refuse fun _ => reserve_agrees runs ?_ (agrees_ok _)
    exact Nat.div_le_self _ _

theorem itemCuts_agrees {item : Kind} (sound : item.Sound) (fits : M.Fits form must item)
    {count : Wire.Count} (total : ∀ n, count = .exactly n →
      form n ≠ none ∧ M.Reaches form must (item.inlineSize * n)) :
    Agrees must (M.itemCuts item count region) (Wire.itemCuts item count region) := by
  rw [itemCuts, fits.sizeIn_eq runs sound]
  rw [Kind.inlineSize] at total
  cases hsize : item.fixedSize? with
  | some size =>
    rw [hsize] at total
    have fixed := fits.reaches_fixedSize hsize
    refine agrees_size? rfl fixed fun a ha _ => ?_
    exact packedCuts_agrees runs hsize (sound.fixedSize_pos hsize) ha fixed total
  | none =>
    rw [hsize, Option.getD_none] at total
    show Agrees must (M.tableCount count region >>= M.itemSpans region) _
    cases count with
    | exactly n =>
      obtain ⟨hn, htable⟩ := total n rfl
      rw [Nat.mul_comm] at htable
      rw [tableCount, Wire.itemCuts_exactly_of_table hsize]
      refine Agrees.bind (agrees_size (runs.mul_slot hn) htable fun table _ htable => ?_)
        fun count hcount => ?_
      · rw [htable]
        exact agrees_refuse fun _ => agrees_ok n
      · cases (refuse_eq_ok.1 hcount).2
        exact itemSpans_agrees runs hn htable
    | atMost max =>
      rw [tableCount, Wire.itemCuts_atMost_of_table hsize]
      refine (agrees_lift _).bind fun n hn => ?_
      -- the table of a list is as long as its first offset says
      have htable : n * offsetSize ≤ Wire.maxOffset := by
        obtain ⟨-, rfl⟩ | ⟨-, -, hread, -⟩ := Wire.itemCount_eq_ok.1 hn
        · decide
        · exact (Wire.readOffset_eq_ok.1 hread).1
      have hcount : n ≤ Wire.maxOffset := (Nat.le_mul_of_pos_right n (by decide)).trans htable
      exact itemSpans_agrees runs (runs.form_offset hcount) (runs.reaches_offset htable)

end Passes

/-! ### Decoding -/

/-- A machine cuts rightly on the way of decoding. -/
def CutsRightly (M : Machine α) (k : Kind) (data : Bytes) : Prop :=
  ∀ k' region span inner, k.Arrives data k' region → k'.Cuts region span inner →
    M.cut span region = some (span.slice region)

theorem CutsRightly.inner {k inner : Kind} {region : Bytes} {span : Wire.Span}
    (h : M.CutsRightly k region) (cut : k.Cuts region span inner) :
    M.CutsRightly inner (span.slice region) :=
  fun _ _ _ _ arrives => h _ _ _ _ (cut.arrives arrives)

end Machine

namespace Kind

variable {α : Type} {M : Machine α} {form : Nat → Option α} {must : Prop} {m depth : Nat}
  {region : Bytes}

theorem decodeItemsOn_agrees {k item : Kind} {count : Wire.Count} (cuts : M.CutsRightly k region)
    (each : ∀ ss, Wire.itemCuts item count region = .ok ss → ∀ span ∈ ss, k.Cuts region span item)
    (spans : Agrees must (M.itemCuts item count region) (Wire.itemCuts item count region))
    (ih : ∀ {data}, M.CutsRightly item data →
      Agrees must (item.decodeOn M m depth data) (item.decode m depth data))
    (wrap : List Value → Value) :
    Agrees must
      (do
        let spans ← M.itemCuts item count region
        let items ← spans.mapM fun span => do item.decodeOn M m depth (← M.cut span region)
        return wrap items)
      (do
        let regions ← Wire.itemRegions item count region
        let items ← mapItems (fun r => item.decode m depth r) regions
        return wrap items) := by
  rw [← Wire.map_itemCuts, bind_assoc]
  refine spans.bind fun ss hss => ?_
  rw [ok_bind]
  refine (agrees_mapM fun span mem => ?_).bind fun items _ => agrees_ok _
  have cut := each ss hss span mem
  rw [cuts _ _ _ _ .start cut]
  exact ih (cuts.inner cut)

theorem decodeFieldsOn_agrees {fields : List (Field Kind)} {ss : List Wire.Span}
    (h : ∀ p ∈ fields.zip ss, M.cut p.2 region = some (p.2.slice region) ∧
      Agrees must (p.1.kind.decodeOn M m depth (p.2.slice region))
        (p.1.kind.decode m depth (p.2.slice region))) :
    Agrees must (decodeFieldsOn M m fields depth region ss)
      (decodeFields m fields depth (ss.map fun s => s.slice region)) := by
  induction fields generalizing ss with
  | nil => exact agrees_ok []
  | cons f fields ih =>
    cases ss with
    | nil => exact agrees_ok []
    | cons span ss =>
      rw [List.zip_cons_cons] at h
      obtain ⟨⟨hcut, hf⟩, hfields⟩ := List.forall_mem_cons.1 h
      rw [decodeFieldsOn, List.map_cons, decodeFields, hcut]
      exact hf.bind fun v _ => (ih hfields).bind fun vs _ => agrees_ok (v :: vs)

/-- The fields of a container, cut out along the spans that were found for them. -/
theorem decodeSpansOn_agrees {name : String} {fields : List (Field Kind)} {ss : List Wire.Span}
    (cuts : M.CutsRightly (.container name fields) region)
    (spans : Wire.containerSpans fields region = .ok ss)
    (ih : ∀ f ∈ fields, ∀ {data}, M.CutsRightly f.kind data →
      Agrees must (f.kind.decodeOn M m depth data) (f.kind.decode m depth data)) :
    Agrees must (decodeFieldsOn M m fields depth region ss)
      (decodeFields m fields depth (ss.map fun s => s.slice region)) := by
  refine decodeFieldsOn_agrees fun p mem => ?_
  have cut : (container name fields).Cuts region p.2 p.1.kind := .field spans mem
  exact ⟨cuts _ _ _ _ .start cut, ih p.1 (List.of_mem_zip mem).1 (cuts.inner cut)⟩

/-- **A machine that can handle the sizes of a kind decodes it rightly.** -/
theorem decodeOn_agrees (runs : M.Runs form) {k : Kind} (sound : k.Sound)
    (fits : M.Fits form must k) (cuts : M.CutsRightly k region) :
    Agrees must (k.decodeOn M m depth region) (k.decode m depth region) := by
  -- the sizes are looked at in passing, and what they cut out is decoded one level below
  induction sound generalizing depth region with
  | bytes pos =>
    rw [decodeOn, decode]
    exact (agrees_lift _).bind fun _ _ => agrees_ok _
  | @uint w width =>
    rw [decodeOn, decode]
    refine (agrees_lift _).bind fun _ _ => ?_
    cases UInt256.ofBytes? region with
    | none => exact agrees_error _
    | some u => exact agrees_ok _
  | byteList =>
    rw [decodeOn, decode]
    exact agrees_refuse fun _ => agrees_ok _
  | @vector item n pos sound ih =>
    obtain ⟨⟨hn, -⟩, hitem⟩ := forall_within_vector.1 fits
    rw [decodeOn, decode]
    refine (agrees_lift _).bind fun _ _ => ?_
    refine decodeItemsOn_agrees cuts (fun ss hss span mem => .vector hss mem) ?_
      (fun cuts => ih hitem cuts) .vector
    refine Machine.itemCuts_agrees runs sound hitem ?_
    rintro _ ⟨⟩
    exact ⟨hn, fits.reaches_partSize rfl⟩
  | @list item max sound ih =>
    obtain ⟨-, hitem⟩ := forall_within_list.1 fits
    rw [decodeOn, decode]
    refine (agrees_lift _).bind fun _ _ => ?_
    refine decodeItemsOn_agrees cuts (fun ss hss span mem => .list hss mem) ?_
      (fun cuts => ih hitem cuts) .list
    refine Machine.itemCuts_agrees runs sound hitem ?_
    rintro _ ⟨⟩
  | @container name fields nonempty each ih =>
    obtain ⟨-, hfields⟩ := forall_within_container.1 fits
    rw [decodeOn, decode]
    refine (agrees_lift _).bind fun _ _ => ?_
    refine (Machine.containerSpans_agrees runs (.container nonempty each) fits).bind
      fun ss hss => ?_
    refine Agrees.bind (decodeSpansOn_agrees cuts hss fun f hf _ cuts => ?_) fun vs _ => agrees_ok _
    exact ih f hf (hfields f hf) cuts

end Kind

/-! ### Machines -/

namespace Machine

/-- A machine that calculates with numbers of any size, if there is room for the items. -/
theorem runs_exact {M : Machine Nat} (arith : M.arith = .exact) (toNat : M.toNat = fun n => n)
    (room : ∀ {items length}, items ≤ length → M.hasRoom items length = true) : M.Runs some where
  calculates := by
    rw [arith]
    exact Arithmetic.exact_calculates
  offsets := by
    refine ⟨?_, fun _ => Option.some_ne_none _⟩
    rintro m _ - ⟨⟩
    rw [toNat]
  room := room

theorem fits_exact {M : Machine Nat} (toNat : M.toNat = fun n => n) (k : Kind) :
    M.Fits some True k := by
  refine fun k' _ => ⟨Option.some_ne_none _, fun n _ => ⟨?_, fun _ => Option.some_ne_none _⟩⟩
  rintro m _ - ⟨⟩
  rw [toNat]

/-- The word of a number that fits one is compared as this number. -/
theorem toNat_wrapping {n m : Nat} (hn : n < UInt64.size) {a : UInt64} (hm : m ≤ n)
    (h : some (UInt64.ofNat m) = some a) : a.toNat = m := by
  cases h
  exact UInt64.toNat_ofNat_of_lt' (lt_of_le_of_lt hm hn)

theorem runs_wrapping : wrapping.Runs fun n => some (UInt64.ofNat n) where
  calculates := Arithmetic.wrapping_calculates
  offsets := ⟨toNat_wrapping (by decide), fun _ => Option.some_ne_none _⟩
  room _ := rfl

theorem toNat_checked {m : Nat} {a : UInt64} (h : Arithmetic.word? m = some a) : a.toNat = m := by
  obtain ⟨hlt, rfl⟩ := Arithmetic.word?_eq_some.1 h
  exact UInt64.toNat_ofNat_of_lt' hlt

theorem runs_checked : checked.Runs Arithmetic.word? where
  calculates := Arithmetic.checked_calculates
  offsets := ⟨fun _ => toNat_checked, by decide⟩
  room _ := rfl

theorem cutsRightly_of_slice? {α : Type} {M : Machine α} (cut : M.cut = Wire.Span.slice?)
    {k : Kind} (sound : k.Sound) (data : Bytes) : M.CutsRightly k data := by
  intro k' region span inner arrives hcut
  rw [cut]
  exact Wire.slice?_eq (hcut.within_region (arrives.sound sound))

end Machine

/-! ### Records -/

namespace Schema

variable {α : Type} {M : Machine α} {form : Nat → Option α} {must : Prop} {s : Schema}

theorem decodeOn_agrees {m : Nat} {data : Bytes} (runs : M.Runs form)
    (fits : M.Fits form must s.kind) (cuts : s.Valid → M.CutsRightly s.kind data) :
    Agrees must (s.decodeOn M m data) (s.decode m data) := by
  have hfits := (Kind.forall_within_container.1 fits).2
  rw [decodeOn, decode]
  refine (agrees_lift _).bind fun _ valid => ?_
  have sound := valid_iff.1 valid
  have hsound := (Kind.sound_container.1 sound).2
  refine (Machine.containerSpans_agrees runs sound fits).bind fun ss hss => ?_
  refine Kind.decodeSpansOn_agrees (cuts valid) hss fun f hf _ cuts => ?_
  exact Kind.decodeOn_agrees runs (hsound f hf) (hfits f hf) cuts

/-- With sizes of any size nothing breaks off, if spans are cut rightly where decoding arrives and
there is room for as many items as bytes. -/
theorem decodeOn_of_exact {M : Machine Nat} (arith : M.arith = .exact)
    (toNat : M.toNat = fun n => n)
    (room : ∀ {items length}, items ≤ length → M.hasRoom items length = true) {m : Nat}
    {data : Bytes} (cuts : s.Valid → M.CutsRightly s.kind data) :
    (s.decodeOn M m data).run = some (s.decode m data) := by
  have agrees : Agrees True (s.decodeOn M m data) (s.decode m data) :=
    decodeOn_agrees (Machine.runs_exact arith toNat room) (Machine.fits_exact toNat _) cuts
  exact agrees.run_eq trivial

/-- **Decoding stays within its regions**: nothing breaks off, though spans are cut only where the
region has them. -/
theorem decodeOn_exact (s : Schema) (m : Nat) (data : Bytes) :
    (s.decodeOn .exact m data).run = some (s.decode m data) :=
  decodeOn_of_exact rfl rfl (fun _ => rfl)
    fun valid => Machine.cutsRightly_of_slice? rfl (valid_iff.1 valid) data

theorem fits_wrapping (sized : s.Sized) :
    Machine.wrapping.Fits (fun n => some (UInt64.ofNat n)) True s.kind := by
  intro k inside
  refine ⟨Option.some_ne_none _, fun n hn => ?_⟩
  exact ⟨Machine.toNat_wrapping ((sized k inside).2 n hn), fun _ => Option.some_ne_none _⟩

/-- Checked words break off only for schemas with sizes that are no words. -/
theorem fits_checked (words : ∀ k ∈ s.kind.within, k.bound < UInt64.size) :
    Machine.checked.Fits Arithmetic.word? s.Sized s.kind := by
  intro k inside
  refine ⟨fun h => ?_, fun n hn => ⟨fun _ => Machine.toNat_checked, fun sized h => ?_⟩⟩
  · exact absurd (Arithmetic.word?_eq_none.1 h) (not_le.2 (words k inside))
  · exact absurd (Arithmetic.word?_eq_none.1 h) (not_le.2 ((sized k inside).2 n hn))

theorem checked_agrees (words : ∀ k ∈ s.kind.within, k.bound < UInt64.size) (m : Nat)
    (data : Bytes) : Agrees s.Sized (s.decodeOn .checked m data) (s.decode m data) :=
  decodeOn_agrees Machine.runs_checked (fits_checked words)
    fun valid => Machine.cutsRightly_of_slice? rfl (valid_iff.1 valid) data

/-- **Words are enough for sizes that are words**, whatever an overflow does. -/
theorem decodeOn_of_sized (sized : s.Sized) (m : Nat) (data : Bytes) :
    (s.decodeOn .wrapping m data).run = some (s.decode m data) ∧
      (s.decodeOn .checked m data).run = some (s.decode m data) := by
  have agrees : Agrees True (s.decodeOn .wrapping m data) (s.decode m data) :=
    decodeOn_agrees Machine.runs_wrapping (fits_wrapping sized)
      fun valid => Machine.cutsRightly_of_slice? rfl (valid_iff.1 valid) data
  exact ⟨agrees.run_eq trivial, (checked_agrees (fun k hk => (sized k hk).1) m data).run_eq sized⟩

/-- **Words that are checked never give a wrong answer.**  If some size is no word, then decoding
may break off. -/
theorem decodeOn_checked (words : ∀ k ∈ s.kind.within, k.bound < UInt64.size) (m : Nat)
    (data : Bytes) :
    (s.decodeOn .checked m data).run = some (s.decode m data) ∨
      (s.decodeOn .checked m data).run = none :=
  (checked_agrees words m data).imp_right And.left

end Schema

end SszRecord

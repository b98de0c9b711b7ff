/-
Operations of the token reader that do not depend on what has been handed out.

Reading and handing out take turns: a token is handed out as soon as no candidate stands in front
of it.  Every operation of the reader is steady, which means that it may as well be run after the
first token of the queue has been handed out, as long as no candidate stands in front of that token.
Operations that only add to the end of the queue are steady by `steady_some`, and operations one
after another by `Steady.bind`.  The exception is a token that goes in front of the one that a
candidate stands in front of (`steady_insertAtCandidate`).
-/
import Mathlib
import SszRecord.Yaml.Token.Stream

namespace SszRecord.Yaml.TokenReader

/-- The reader with the first token of its queue handed out. -/
def pop (s : TokenReader) : TokenReader := { s with queue := s.queue.tail, taken := s.taken + 1 }

/-- Candidates stand in front of tokens from the one of number `b` on, and so will later ones. -/
structure Bounded (b : Nat) (s : TokenReader) : Prop where
  numbers : ∀ o ∈ s.candidate :: s.outer, ∀ c ∈ o, b ≤ c.number
  room : b ≤ s.taken + s.queue.length

/-- An operation that keeps the tokens in the queue and the bounds of candidates, and does the same
when the first token has been handed out. -/
structure Steady (f : TokenReader → Option TokenReader) : Prop where
  bounded : ∀ {b : Nat} {s s' : TokenReader}, f s = some s' → s.Bounded b → s'.Bounded b
  taken : ∀ {s s' : TokenReader}, f s = some s' → s'.taken = s.taken
  pop : ∀ {s : TokenReader}, s.Bounded (s.taken + 1) → f s.pop = (f s).map pop
  head : ∀ {s s' : TokenReader}, s.Bounded (s.taken + 1) → f s = some s' →
    s'.queue.head? = s.queue.head?

/-! ### Candidates that are stale -/

/-- What is left of a candidate at a mark. -/
def fresh (m : Mark) (o : Option Candidate) : Option Candidate := o.filter fun c => !isStale m c

/-- Whether a required candidate has become stale. -/
def isMissed (m : Mark) (o : Option Candidate) : Bool := o.any fun c => isStale m c && c.isRequired

theorem refresh_eq (m : Mark) (o : Option Candidate) :
    refresh m o = if isMissed m o then none else some (fresh m o) := by
  cases o with
  | none => rfl
  | some c =>
    rw [refresh, isMissed, fresh, Option.any_some, Option.filter_some]
    cases isStale m c <;> cases c.isRequired <;> rfl

theorem mapM_refresh (m : Mark) (os : List (Option Candidate)) :
    os.mapM (refresh m) = if os.any (isMissed m) then none else some (os.map (fresh m)) := by
  induction os with
  | nil => rfl
  | cons o os ih =>
    rw [List.mapM_cons, refresh_eq, ih, List.any_cons, List.map_cons]
    cases isMissed m o <;> cases os.any (isMissed m) <;> rfl

/-- The reader without the candidates that are stale. -/
def settle (s : TokenReader) : TokenReader :=
  { s with
    candidate := fresh s.input.mark s.candidate
    outer := s.outer.map (fresh s.input.mark) }

theorem dropStale_eq (s : TokenReader) :
    s.dropStale =
      if (s.candidate :: s.outer).any (isMissed s.input.mark) then none else some s.settle := by
  rw [dropStale, refresh_eq, mapM_refresh, List.any_cons]
  cases isMissed s.input.mark s.candidate <;> cases s.outer.any (isMissed s.input.mark) <;> rfl

theorem mem_of_mem_fresh {m : Mark} {o : Option Candidate} {c : Candidate} (h : c ∈ fresh m o) :
    c ∈ o := by
  rw [fresh, Option.mem_filter_iff] at h
  exact h.1

/-! ### Steady operations -/

/-- A reader that has read on: its queue has grown at the end, and its candidates are old ones or
stand in front of a token that is added. -/
structure Grows (s s' : TokenReader) : Prop where
  candidates : ∀ o ∈ s'.candidate :: s'.outer, ∀ c ∈ o,
    (∃ o ∈ s.candidate :: s.outer, c ∈ o) ∨ c.number = s.taken + s.queue.length
  taken : s'.taken = s.taken
  queue : s.queue <+: s'.queue

theorem Grows.of_same {s s' : TokenReader} (candidate : s'.candidate = s.candidate)
    (outer : s'.outer = s.outer) (taken : s'.taken = s.taken) (queue : s.queue <+: s'.queue) :
    s.Grows s' := by
  refine ⟨fun o ho c hc => .inl ⟨o, ?_, hc⟩, taken, queue⟩
  rwa [← candidate, ← outer]

theorem Bounded.queue_ne_nil {s : TokenReader} (h : s.Bounded (s.taken + 1)) : s.queue ≠ [] := by
  have hroom := h.room
  exact List.ne_nil_of_length_pos (by omega)

/-- An operation that always succeeds. -/
theorem steady_some {g : TokenReader → TokenReader} (grows : ∀ s : TokenReader, s.Grows (g s))
    (pop : ∀ s : TokenReader, s.queue ≠ [] → g s.pop = (g s).pop) : Steady fun s => some (g s) := by
  refine ⟨?_, ?_, ?_, ?_⟩
  · intro b s s' hs hb
    cases hs
    have hroom := hb.room
    have hqueue := (grows s).queue.length_le
    have htaken := (grows s).taken
    refine ⟨fun o ho c hc => ?_, by omega⟩
    obtain ⟨o', ho', hc'⟩ | hnew := (grows s).candidates o ho c hc
    · exact hb.numbers o' ho' c hc'
    · omega
  · intro s s' hs
    cases hs
    exact (grows s).taken
  · intro s hb
    rw [pop s hb.queue_ne_nil]
    rfl
  · intro s s' hb hs
    cases hs
    obtain ⟨extra, hextra⟩ := (grows s).queue
    rw [← hextra, List.head?_append_of_ne_nil _ hb.queue_ne_nil]

theorem steady_none : Steady fun _ => none := ⟨nofun, nofun, fun _ => rfl, nofun⟩

theorem steady_id : Steady some :=
  steady_some (fun _ => .of_same rfl rfl rfl List.prefix_rfl) fun _ _ => rfl

/-- Operations one after another. -/
theorem Steady.bind {f g : TokenReader → Option TokenReader} (hf : Steady f) (hg : Steady g) :
    Steady fun s => f s >>= g := by
  refine ⟨?_, ?_, ?_, ?_⟩
  · intro b s s' hs hb
    obtain ⟨t, hft, hgt⟩ := Option.bind_eq_some_iff.1 hs
    exact hg.bounded hgt (hf.bounded hft hb)
  · intro s s' hs
    obtain ⟨t, hft, hgt⟩ := Option.bind_eq_some_iff.1 hs
    rw [hg.taken hgt, hf.taken hft]
  · intro s hb
    show (f s.pop).bind g = ((f s).bind g).map TokenReader.pop
    rw [hf.pop hb]
    cases hft : f s with
    | none => rfl
    | some t =>
      refine hg.pop ?_
      rw [hf.taken hft]
      exact hf.bounded hft hb
  · intro s s' hb hs
    obtain ⟨t, hft, hgt⟩ := Option.bind_eq_some_iff.1 hs
    have hbt : t.Bounded (t.taken + 1) := by
      rw [hf.taken hft]
      exact hf.bounded hft hb
    rw [hg.head hbt hgt, hf.head hb hft]

/-- An operation is steady if it is a steady one for each answer of a view that handing out a token
does not change. -/
theorem Steady.of_view {α : Type} (view : TokenReader → α) (hview : ∀ s, view s.pop = view s)
    {f : TokenReader → Option TokenReader}
    (hf : ∀ a, ∃ g, Steady g ∧ ∀ s, view s = a → f s = g s) : Steady f := by
  refine ⟨?_, ?_, ?_, ?_⟩
  · intro b s s' hs hb
    obtain ⟨g, hg, heq⟩ := hf (view s)
    exact hg.bounded ((heq s rfl).symm.trans hs) hb
  · intro s s' hs
    obtain ⟨g, hg, heq⟩ := hf (view s)
    exact hg.taken ((heq s rfl).symm.trans hs)
  · intro s hb
    obtain ⟨g, hg, heq⟩ := hf (view s)
    rw [heq s rfl, heq s.pop (hview s)]
    exact hg.pop hb
  · intro s s' hb hs
    obtain ⟨g, hg, heq⟩ := hf (view s)
    exact hg.head hb ((heq s rfl).symm.trans hs)

/-- A choice between operations by something that handing out a token does not change. -/
theorem Steady.choose {α : Type} (view : TokenReader → α) (hview : ∀ s, view s.pop = view s)
    {f : α → TokenReader → Option TokenReader} (hf : ∀ a, Steady (f a)) :
    Steady fun s => f (view s) s := by
  refine Steady.of_view view hview fun a => ⟨f a, hf a, fun s hs => ?_⟩
  rw [hs]

theorem Steady.cond {p : Prop} {_ : Decidable p} {f g : TokenReader → Option TokenReader}
    (hf : Steady f) (hg : Steady g) : Steady fun s => if p then f s else g s := by
  by_cases hp : p
  · simpa only [if_pos hp] using hf
  · simpa only [if_neg hp] using hg

theorem Steady.ite {b : TokenReader → Bool} (hb : ∀ s, b s.pop = b s)
    {f g : TokenReader → Option TokenReader} (hf : Steady f) (hg : Steady g) :
    Steady fun s => if b s then f s else g s := by
  exact Steady.choose b hb (f := fun b s => if b then f s else g s) fun _ => hf.cond hg

/-! ### The operations of the reader -/

theorem steady_closeBlocks (ends : Nat → Bool) : Steady fun s => some (s.closeBlocks ends) := by
  refine steady_some (fun s => ?_) fun s hs => ?_
  · unfold closeBlocks
    split
    · exact .of_same rfl rfl rfl List.prefix_rfl
    · exact .of_same rfl rfl rfl (List.prefix_append _ _)
  · have hpop : s.pop.inBrackets = s.inBrackets := rfl
    unfold closeBlocks
    rw [hpop]
    split
    · rfl
    · simp only [pop, List.tail_append_of_ne_nil hs]

theorem steady_openBlock (kind : Token.Kind) (mark : Mark) :
    Steady fun s => some (s.openBlock kind none mark) := by
  refine steady_some (fun s => ?_) fun s hs => ?_
  · unfold openBlock
    split
    · exact .of_same rfl rfl rfl List.prefix_rfl
    · exact .of_same rfl rfl rfl (List.prefix_append _ _)
  · have hpop : (s.pop.inBrackets || decide (mark.column < s.pop.margin)) =
        (s.inBrackets || decide (mark.column < s.margin)) := rfl
    unfold openBlock
    rw [hpop]
    split
    · rfl
    · simp only [push, pop, List.tail_append_of_ne_nil hs]

theorem steady_dropCandidate : Steady dropCandidate := by
  refine Steady.ite (b := fun s => s.candidate.any (·.isRequired)) (fun _ => rfl) steady_none ?_
  refine steady_some (fun s => ⟨fun o ho c hc => ?_, rfl, List.prefix_rfl⟩) fun _ _ => rfl
  obtain rfl | ho := List.mem_cons.1 ho
  · cases hc
  · exact .inl ⟨o, List.mem_cons_of_mem _ ho, hc⟩

theorem steady_saveCandidate : Steady saveCandidate := by
  have hadd (isRequired : Bool) : Steady fun s => some { s with
      candidate := some ⟨isRequired, s.taken + s.queue.length, s.input.mark⟩ } := by
    refine steady_some (fun s => ⟨fun o ho c hc => ?_, rfl, List.prefix_rfl⟩) fun s hs => ?_
    · obtain rfl | ho := List.mem_cons.1 ho
      · cases hc
        exact .inr rfl
      · exact .inl ⟨o, List.mem_cons_of_mem _ ho, hc⟩
    · have hlength : s.taken + 1 + s.queue.tail.length = s.taken + s.queue.length := by
        have := List.length_pos_of_ne_nil hs
        rw [List.length_tail]
        omega
      simp only [pop, hlength]
  have hsave : Steady fun s => s.dropCandidate >>= fun t => some { t with
      candidate := some ⟨!s.inBrackets && s.margin = s.input.mark.column + 1,
        t.taken + t.queue.length, t.input.mark⟩ } :=
    Steady.choose (fun s => !s.inBrackets && s.margin = s.input.mark.column + 1)
      (fun _ => rfl) fun isRequired => steady_dropCandidate.bind (hadd isRequired)
  exact Steady.ite (b := fun s => !s.keyAllowed) (fun _ => rfl) steady_id hsave

theorem grows_settle (s : TokenReader) : s.Grows s.settle := by
  refine ⟨fun o ho c hc => ?_, rfl, List.prefix_rfl⟩
  obtain rfl | ho := List.mem_cons.1 ho
  · exact .inl ⟨_, List.mem_cons_self, mem_of_mem_fresh hc⟩
  · obtain ⟨o', ho', rfl⟩ := List.mem_map.1 ho
    exact .inl ⟨o', List.mem_cons_of_mem _ ho', mem_of_mem_fresh hc⟩

theorem steady_dropStale : Steady dropStale := by
  rw [funext dropStale_eq]
  exact Steady.ite (b := fun s => (s.candidate :: s.outer).any (isMissed s.input.mark))
    (fun _ => rfl) steady_none (steady_some grows_settle fun _ _ => rfl)

/-! ### Tokens by kind -/

theorem steady_take (keyAllowed : Bool) (kind : Token.Kind) (width : Nat) :
    Steady fun s => some ({ s with keyAllowed }.take kind width) :=
  steady_some (fun _ => .of_same rfl rfl rfl (List.prefix_append _ _)) fun s hs => by
    simp only [take, push, pop, List.tail_append_of_ne_nil hs]

/-- Taking a token with content: what has been read gives its kind, the input behind it, and whether
a key may begin there. -/
theorem steady_content {α : Type} (read : TokenReader → Option α)
    (hread : ∀ s, read s.pop = read s) (kind : α → Token.Kind) (behind : α → Input)
    (keyAllowed : α → Bool) : Steady fun s => read s >>= fun a => some
      ({ s with keyAllowed := keyAllowed a, input := behind a }.push (kind a) s.input.mark) := by
  refine Steady.choose read hread (f := fun r s => r >>= fun a =>
    some ({ s with keyAllowed := keyAllowed a, input := behind a }.push (kind a) s.input.mark))
    fun r => ?_
  cases r with
  | none => exact steady_none
  | some a =>
    exact steady_some (fun _ => .of_same rfl rfl rfl (List.prefix_append _ _)) fun s hs => by
      simp only [push, pop, List.tail_append_of_ne_nil hs]

theorem steady_takeEnd : Steady takeEnd := by
  have hend (m : Mark) : Steady fun s : TokenReader =>
      some ({ s with keyAllowed := false }.push .streamEnd m) :=
    steady_some (fun _ => .of_same rfl rfl rfl (List.prefix_append _ _)) fun s hs => by
      simp only [push, pop, List.tail_append_of_ne_nil hs]
  have hmove (m : Mark) : Steady fun s => some { s with input := ⟨[], m⟩ } :=
    steady_some (fun _ => .of_same rfl rfl rfl List.prefix_rfl) fun _ _ => rfl
  exact Steady.choose
    (fun s => if s.input.mark.column = 0 then s.input.mark
      else ⟨s.input.mark.index, s.input.mark.line + 1, 0⟩) (fun _ => rfl)
    fun m => (hmove m).bind ((steady_closeBlocks _).bind (steady_dropCandidate.bind (hend m)))

theorem steady_takeDirective : Steady takeDirective :=
  (steady_closeBlocks _).bind (steady_dropCandidate.bind
    (steady_content (fun s => readDirective s.input) (fun _ => rfl) (fun p => p.1)
      (fun p => p.2) fun _ => false))

theorem steady_takeIndicator (kind : Token.Kind) : Steady (takeIndicator kind) :=
  (steady_closeBlocks _).bind (steady_dropCandidate.bind (steady_take false kind 3))

theorem steady_takeOpen (kind : Token.Kind) : Steady (takeOpen kind) := by
  refine steady_saveCandidate.bind (steady_some (fun s => ⟨fun o ho c hc => ?_, rfl,
    List.prefix_append _ _⟩) fun s hs => ?_)
  · obtain rfl | ho := List.mem_cons.1 ho
    · cases hc
    · exact .inl ⟨o, ho, hc⟩
  · simp only [take, push, pop, List.tail_append_of_ne_nil hs]

/-- The reader outside of the innermost bracket, where the candidate is the one from before it. -/
def leave (s : TokenReader) : TokenReader :=
  match s.outer with
  | [] => s
  | candidate :: outer => { s with candidate, outer }

theorem steady_takeClose (kind : Token.Kind) : Steady (takeClose kind) := by
  have hleave : Steady fun s => some s.leave := by
    refine steady_some (fun s => ?_) fun s _ => ?_
    · cases houter : s.outer with
      | nil =>
        rw [leave, houter]
        exact .of_same rfl rfl rfl List.prefix_rfl
      | cons o os =>
        rw [leave, houter]
        refine ⟨fun o' ho' c hc => .inl ⟨o', List.mem_cons_of_mem _ ?_, hc⟩, rfl, List.prefix_rfl⟩
        rw [houter]
        exact ho'
    · have hpop : s.pop.outer = s.outer := rfl
      rw [leave, leave, hpop]
      cases s.outer <;> rfl
  exact steady_dropCandidate.bind (hleave.bind (steady_take false kind 1))

theorem steady_takeComma : Steady takeComma :=
  steady_dropCandidate.bind (steady_take true .comma 1)

/-- Opening a block where the next token stands. -/
theorem steady_openHere (kind : Token.Kind) :
    Steady fun s => some (s.openBlock kind none s.input.mark) :=
  Steady.choose (fun s => s.input.mark) (fun _ => rfl) fun m => steady_openBlock kind m

/-- Taking a token behind which a key may begin outside of brackets only. -/
theorem steady_takeOutside (kind : Token.Kind) :
    Steady fun s => some ({ s with keyAllowed := !s.inBrackets }.take kind 1) :=
  Steady.choose (fun s => !s.inBrackets) (fun _ => rfl) fun keyAllowed =>
    steady_take keyAllowed kind 1

theorem steady_takeDash : Steady takeDash :=
  Steady.ite (b := fun s => !s.inBrackets && !s.keyAllowed) (fun _ => rfl) steady_none
    ((steady_openHere _).bind (steady_dropCandidate.bind (steady_take true .dash 1)))

theorem steady_takeKey : Steady takeKey :=
  Steady.ite (b := fun s => !s.inBrackets && !s.keyAllowed) (fun _ => rfl) steady_none
    ((steady_openHere _).bind (steady_dropCandidate.bind (steady_takeOutside .key)))

/-- Inserts a token in front of the one that the candidate stands in front of. -/
def insertAtCandidate (kind : Token.Kind) (s : TokenReader) : Option TokenReader :=
  s.candidate.map fun c => s.insertToken c.number kind c.mark

theorem steady_insertAtCandidate (kind : Token.Kind) : Steady (insertAtCandidate kind) := by
  -- the token of the candidate is not the first one of the queue, which is the one handed out
  have hqueue {s : TokenReader} (hb : s.Bounded (s.taken + 1)) {c : Candidate}
      (hc : s.candidate = some c) : ∃ t q n, s.queue = t :: q ∧ c.number - s.taken = n + 1 ∧
        c.number - (s.taken + 1) = n := by
    obtain ⟨t, q, htq⟩ := List.exists_cons_of_ne_nil hb.queue_ne_nil
    have hnumber := hb.numbers _ List.mem_cons_self c hc
    exact ⟨t, q, c.number - (s.taken + 1), htq, by omega, rfl⟩
  refine ⟨?_, ?_, ?_, ?_⟩
  · intro b s s' hs hb
    obtain ⟨c, hc, rfl⟩ := Option.map_eq_some_iff.1 hs
    have hlength : s.queue.length ≤ (s.insertToken c.number kind c.mark).queue.length := by
      rw [insertToken, List.length_insertIdx]
      split <;> omega
    exact ⟨hb.numbers, le_trans hb.room (Nat.add_le_add_left hlength _)⟩
  · intro s s' hs
    obtain ⟨c, hc, rfl⟩ := Option.map_eq_some_iff.1 hs
    rfl
  · intro s hb
    cases hc : s.candidate with
    | none =>
      rw [insertAtCandidate, insertAtCandidate, show s.pop.candidate = none from hc, hc]
      rfl
    | some c =>
      obtain ⟨t, q, n, htq, hn, hn'⟩ := hqueue hb hc
      rw [insertAtCandidate, insertAtCandidate, show s.pop.candidate = some c from hc, hc]
      simp only [Option.map_some, insertToken, pop, htq, hn, hn', List.tail_cons,
        List.insertIdx_succ_cons]
  · intro s s' hb hs
    obtain ⟨c, hc, rfl⟩ := Option.map_eq_some_iff.1 hs
    obtain ⟨t, q, n, htq, hn, -⟩ := hqueue hb hc
    rw [insertToken, htq, hn, List.insertIdx_succ_cons]
    rfl

/-- Opens a block in front of the token that the candidate stands in front of. -/
def openAtCandidate (s : TokenReader) : Option TokenReader :=
  s.candidate.map fun c => s.openBlock .blockMapping (some c.number) c.mark

theorem steady_openAtCandidate : Steady openAtCandidate := by
  have hblocks (column : Nat) : Steady fun s : TokenReader =>
      some { s with blocks := column :: s.blocks } :=
    steady_some (fun _ => .of_same rfl rfl rfl List.prefix_rfl) fun _ _ => rfl
  have hopen (o : Option Candidate) : Steady fun s => o.bind fun c =>
      if s.inBrackets || c.mark.column < s.margin then some s
      else insertAtCandidate .blockMapping { s with blocks := c.mark.column :: s.blocks } := by
    cases o with
    | none => exact steady_none
    | some c =>
      exact Steady.ite (b := fun s => s.inBrackets || c.mark.column < s.margin) (fun _ => rfl)
        steady_id ((hblocks c.mark.column).bind (steady_insertAtCandidate .blockMapping))
  -- a block that is opened there is a token put in front of the candidate, with its column noted
  have heq : openAtCandidate = fun s => s.candidate.bind fun c =>
      if s.inBrackets || c.mark.column < s.margin then some s
      else insertAtCandidate .blockMapping { s with blocks := c.mark.column :: s.blocks } := by
    funext s
    rw [openAtCandidate]
    cases hc : s.candidate with
    | none => rfl
    | some c =>
      simp only [Option.map_some, Option.bind_some, openBlock, insertAtCandidate, hc]
      split <;> rfl
  rw [heq]
  exact Steady.choose candidate (fun _ => rfl) hopen

theorem steady_takeValue : Steady takeValue := by
  have hdone : Steady fun s : TokenReader =>
      some ({ s with candidate := none, keyAllowed := false }.take .value 1) := by
    refine steady_some (fun s => ⟨fun o ho c hc => ?_, rfl, List.prefix_append _ _⟩) fun s hs => ?_
    · obtain rfl | ho := List.mem_cons.1 ho
      · cases hc
      · exact .inl ⟨o, List.mem_cons_of_mem _ ho, hc⟩
    · simp only [take, push, pop, List.tail_append_of_ne_nil hs]
  have hconfirmed : Steady fun s => insertAtCandidate .key s >>= fun s =>
      openAtCandidate s >>= fun s =>
        some ({ s with candidate := none, keyAllowed := false }.take .value 1) :=
    (steady_insertAtCandidate .key).bind (steady_openAtCandidate.bind hdone)
  have hbare : Steady fun s => if !s.inBrackets && !s.keyAllowed then none
      else some (s.openBlock .blockMapping none s.input.mark) >>= fun s =>
        some ({ s with keyAllowed := !s.inBrackets }.take .value 1) :=
    Steady.ite (b := fun s => !s.inBrackets && !s.keyAllowed) (fun _ => rfl) steady_none
      ((steady_openHere .blockMapping).bind (steady_takeOutside .value))
  have heq : takeValue = fun s => if s.candidate.isSome then
      insertAtCandidate .key s >>= fun s => openAtCandidate s >>= fun s =>
        some ({ s with candidate := none, keyAllowed := false }.take .value 1)
      else if !s.inBrackets && !s.keyAllowed then none
      else some (s.openBlock .blockMapping none s.input.mark) >>= fun s =>
        some ({ s with keyAllowed := !s.inBrackets }.take .value 1) := by
    funext s
    rw [takeValue]
    cases hc : s.candidate with
    | none => rfl
    | some c =>
      simp only [Option.isSome_some, if_true, insertAtCandidate, openAtCandidate, hc,
        Option.map_some, insertToken]
      rfl
  rw [heq]
  exact Steady.ite (b := fun s => s.candidate.isSome) (fun _ => rfl) hconfirmed hbare

theorem steady_takeAnchor (kind : String → Token.Kind) : Steady (takeAnchor kind) :=
  steady_saveCandidate.bind (steady_content (fun s => readAnchor s.input) (fun _ => rfl)
    (fun p => kind p.1) (fun p => p.2) fun _ => false)

theorem steady_takeTag : Steady takeTag :=
  steady_saveCandidate.bind (steady_content (fun s => readTag s.inBrackets s.input)
    (fun _ => rfl) (fun p => .tag p.1) (fun p => p.2) fun _ => false)

theorem steady_takeBlockScalar (isFolded : Bool) : Steady (takeBlockScalar isFolded) :=
  steady_dropCandidate.bind (steady_content (fun s => readBlock isFolded s.margin s.input)
    (fun _ => rfl) (fun p => .scalar p.1 false) (fun p => p.2) fun _ => true)

theorem steady_takeQuoted (isSingle : Bool) : Steady (takeQuoted isSingle) :=
  steady_saveCandidate.bind (steady_content (fun s => readQuoted isSingle s.input)
    (fun _ => rfl) (fun p => .scalar p.1 false) (fun p => p.2) fun _ => false)

theorem steady_takePlain : Steady takePlain :=
  steady_saveCandidate.bind (steady_content
    (fun s => readPlain s.inBrackets s.margin s.input) (fun _ => rfl)
    (fun p => .scalar p.1 true) (fun p => p.2.1) fun p => p.2.2)

/-! ### Reading a token -/

theorem steady_toToken : Steady toToken := by
  have hmove (v : Bool × Input) : Steady fun s => some { s with keyAllowed := v.1, input := v.2 } :=
    steady_some (fun _ => .of_same rfl rfl rfl List.prefix_rfl) fun _ _ => rfl
  exact Steady.choose
    (fun s => skipSpace s.inBrackets (s.input.rest.length + 1) s.keyAllowed s.input)
    (fun _ => rfl) fun v => (hmove v).bind (steady_dropStale.bind
      (steady_closeBlocks fun column => v.2.mark.column < column))

theorem steady_takeNext : Steady takeNext := by
  refine Steady.of_view (fun s => (s.input, s.inBrackets)) (fun _ => rfl) fun v => ?_
  obtain ⟨i, inBrackets⟩ := v
  cases hrest : i.rest with
  | nil =>
    refine ⟨takeEnd, steady_takeEnd, fun s hs => ?_⟩
    cases hs
    rw [takeNext, hrest]
  | cons c rest =>
    -- the operation that is taken is found by unfolding, and each branch of it is steady
    refine ⟨?taken, ?steady, ?unfolded⟩
    case unfolded =>
      intro s hs
      obtain ⟨hi, hb⟩ := Prod.mk.inj hs
      rw [takeNext, hi, hrest, hb]
    case steady =>
      exact .cond steady_takeDirective <| .cond (steady_takeIndicator _) <|
        .cond (steady_takeIndicator _) <| .cond (steady_takeOpen _) <| .cond (steady_takeOpen _) <|
        .cond (steady_takeClose _) <| .cond (steady_takeClose _) <| .cond steady_takeComma <|
        .cond steady_takeDash <| .cond steady_takeKey <| .cond steady_takeValue <|
        .cond (steady_takeAnchor _) <| .cond (steady_takeAnchor _) <| .cond steady_takeTag <|
        .cond (steady_takeBlockScalar _) <| .cond (steady_takeBlockScalar _) <|
        .cond (steady_takeQuoted _) <| .cond (steady_takeQuoted _) <|
        .cond steady_takePlain steady_none

/-- **Reading a token is steady.** -/
theorem steady_fetch : Steady fetch := by
  have hend : Steady fun s => if s.isCut && s.input.rest.isEmpty then none else some s :=
    Steady.ite (b := fun s => s.isCut && s.input.rest.isEmpty) (fun _ => rfl) steady_none steady_id
  have hnext : Steady fun s =>
      if s.isCut && (s.input.rest.take lookahead).length < lookahead then none
      else s.takeNext >>= fun s => if s.isCut && s.input.rest.isEmpty then none else some s :=
    Steady.ite (b := fun s => s.isCut && (s.input.rest.take lookahead).length < lookahead)
      (fun _ => rfl) steady_none (steady_takeNext.bind hend)
  exact steady_toToken.bind hnext

end SszRecord.Yaml.TokenReader

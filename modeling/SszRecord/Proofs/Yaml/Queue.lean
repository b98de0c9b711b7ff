/-
The tokens that are handed out are those that are read.

A reader that reads up to the end of its text, token after token, hands out the queue that it ends
with (`tokens_of_reads`).  In front of each token that it hands out it may read ahead, and it drops
the candidates that have become stale; neither changes what is read.
-/
import Mathlib
import SszRecord.Proofs.Yaml.Steady

namespace SszRecord.Yaml.TokenReader

/-! ### Stale candidates that are dropped early -/

/-- A mark that is not behind another one. -/
def NotBehind (m m' : Mark) : Prop := m.line ≤ m'.line ∧ m.index ≤ m'.index

theorem NotBehind.refl (m : Mark) : NotBehind m m := ⟨le_rfl, le_rfl⟩

theorem NotBehind.trans {m m' m'' : Mark} (h : NotBehind m m') (h' : NotBehind m' m'') :
    NotBehind m m'' := ⟨h.1.trans h'.1, h.2.trans h'.2⟩

theorem isStale_mono {m m' : Mark} (h : NotBehind m m') {c : Candidate}
    (hc : isStale m c = true) : isStale m' c = true := by
  obtain ⟨hline, hindex⟩ := h
  simp only [isStale, Bool.or_eq_true, decide_eq_true_eq] at hc ⊢
  omega

theorem notBehind_advance (count : Nat) (i : Input) : NotBehind i.mark (i.advance count).mark :=
  ⟨le_rfl, Nat.le_add_right _ _⟩

theorem notBehind_skipBreak (i : Input) : NotBehind i.mark i.skipBreak.mark := by
  unfold Input.skipBreak Input.takeBreak
  split
  · exact ⟨Nat.le_succ _, Nat.le_add_right _ _⟩
  · split_ifs
    · exact ⟨Nat.le_succ _, Nat.le_add_right _ _⟩
    · exact ⟨Nat.le_succ _, Nat.le_add_right _ _⟩
    · exact .refl _
  · exact .refl _

theorem notBehind_if {p : Prop} {_ : Decidable p} {i j : Input} (h : NotBehind i.mark j.mark) :
    NotBehind i.mark (if p then j else i).mark := by
  split_ifs
  · exact h
  · exact .refl _

/-- The input behind the blanks of a line and its comment. -/
def skipLine (inBrackets keyAllowed : Bool) (i : Input) : Input :=
  let i := if i.mark.column = 0 && i.rest.head? = some '\ufeff' then i.skip else i
  let i := i.skipWhile fun c => c = ' ' || (c = '\t' && (inBrackets || !keyAllowed))
  if i.rest.head? = some '#' then i.skipWhile fun c => !isBreak c else i

theorem notBehind_skipLine (inBrackets keyAllowed : Bool) (i : Input) :
    NotBehind i.mark (skipLine inBrackets keyAllowed i).mark :=
  ((notBehind_if (notBehind_advance 1 i)).trans (notBehind_advance _ _)).trans
    (notBehind_if (notBehind_advance _ _))

theorem skipSpace_succ (inBrackets : Bool) (fuel : Nat) (keyAllowed : Bool) (i : Input) :
    skipSpace inBrackets (fuel + 1) keyAllowed i =
      if (skipLine inBrackets keyAllowed i).rest.head?.any isBreak then
        skipSpace inBrackets fuel (keyAllowed || !inBrackets)
          (skipLine inBrackets keyAllowed i).skipBreak
      else (keyAllowed, skipLine inBrackets keyAllowed i) := rfl

theorem notBehind_skipSpace (inBrackets : Bool) (fuel : Nat) (keyAllowed : Bool) (i : Input) :
    NotBehind i.mark (skipSpace inBrackets fuel keyAllowed i).2.mark := by
  induction fuel generalizing keyAllowed i with
  | zero => exact .refl _
  | succ fuel ih =>
    have hline := notBehind_skipLine inBrackets keyAllowed i
    rw [skipSpace_succ]
    split_ifs
    · exact (hline.trans (notBehind_skipBreak _)).trans (ih _ _)
    · exact hline

theorem isMissed_mono {m m' : Mark} (h : NotBehind m m') {o : Option Candidate}
    (ho : isMissed m o = true) : isMissed m' o = true := by
  cases o with
  | none => exact ho
  | some c =>
    simp only [isMissed, Option.any_some, Bool.and_eq_true] at ho ⊢
    exact ⟨isStale_mono h ho.1, ho.2⟩

theorem fresh_fresh {m m' : Mark} (h : NotBehind m m') (o : Option Candidate) :
    fresh m' (fresh m o) = fresh m' o := by
  cases o with
  | none => rfl
  | some c =>
    rw [fresh, fresh, fresh, Option.filter_some, Option.filter_some]
    by_cases hc : isStale m c = true
    · rw [hc, isStale_mono h hc]
      rfl
    · rw [Bool.eq_false_of_not_eq_true hc]
      rfl

theorem isMissed_fresh {m : Mark} (m' : Mark) {o : Option Candidate}
    (ho : isMissed m o = false) : isMissed m' (fresh m o) = isMissed m' o := by
  cases o with
  | none => rfl
  | some c =>
    rw [fresh, Option.filter_some]
    cases hc : isStale m c with
    | false => rfl
    | true =>
      -- a candidate that is dropped is not required, so it is not missed later
      simp only [isMissed, Option.any_some, hc, Bool.true_and] at ho
      simp only [isMissed, Option.any_some, ho, Bool.and_false]
      rfl

theorem dropStale_eq_some {s d : TokenReader} :
    s.dropStale = some d ↔
      (∀ o ∈ s.candidate :: s.outer, isMissed s.input.mark o = false) ∧ s.settle = d := by
  rw [dropStale_eq]
  split_ifs with h
  · obtain ⟨o, ho, hmissed⟩ := List.any_eq_true.1 h
    refine ⟨nofun, fun hs => ?_⟩
    rw [hs.1 o ho] at hmissed
    cases hmissed
  · rw [Option.some_inj]
    refine (and_iff_right fun o ho => ?_).symm
    rw [← Bool.not_eq_true]
    exact fun hmissed => h (List.any_eq_true.2 ⟨o, ho, hmissed⟩)

theorem inBrackets_settle (s : TokenReader) : s.settle.inBrackets = s.inBrackets := by
  rw [inBrackets, inBrackets, settle, List.isEmpty_map]

/-- Dropping stale candidates before the next token is read makes no difference. -/
theorem toToken_settle {s t : TokenReader} (h : s.toToken = some t) :
    s.dropStale = some s.settle ∧ s.settle.toToken = some t := by
  obtain ⟨keyAllowed, i, hspace⟩ : ∃ keyAllowed i, skipSpace s.inBrackets
      (s.input.rest.length + 1) s.keyAllowed s.input = (keyAllowed, i) := ⟨_, _, rfl⟩
  have hmark : NotBehind s.input.mark i.mark := by
    have := notBehind_skipSpace s.inBrackets (s.input.rest.length + 1) s.keyAllowed s.input
    rwa [hspace] at this
  have htoToken (u : TokenReader) (hu : u.inBrackets = s.inBrackets) (hi : u.input = s.input)
      (hk : u.keyAllowed = s.keyAllowed) :
      u.toToken = { u with keyAllowed, input := i }.dropStale >>= fun u =>
        some (u.closeBlocks fun column => i.mark.column < column) := by
    rw [toToken, hu, hi, hk, hspace]
    rfl
  rw [htoToken s rfl rfl rfl] at h
  obtain ⟨u, hu, ht⟩ := Option.bind_eq_some_iff.1 h
  obtain ⟨hkept, rfl⟩ := dropStale_eq_some.1 hu
  -- what is stale in front of the spaces is stale behind them as well
  have hearlier : ∀ o ∈ s.candidate :: s.outer, isMissed s.input.mark o = false := by
    intro o ho
    rw [← Bool.not_eq_true]
    intro hmissed
    exact Bool.false_ne_true ((hkept o ho).symm.trans (isMissed_mono hmark hmissed))
  refine ⟨dropStale_eq_some.2 ⟨hearlier, rfl⟩, ?_⟩
  rw [htoToken s.settle (inBrackets_settle s) rfl rfl]
  refine Option.bind_eq_some_iff.2 ⟨_, dropStale_eq_some.2 ⟨fun o ho => ?_, rfl⟩, ?_⟩
  · obtain ⟨o', ho', rfl⟩ : ∃ o' ∈ s.candidate :: s.outer, fresh s.input.mark o' = o :=
      List.mem_map.1 ho
    rw [isMissed_fresh _ (hearlier o' ho')]
    exact hkept o' ho'
  · have hfresh : fresh i.mark ∘ fresh s.input.mark = fresh i.mark := funext (fresh_fresh hmark)
    rw [← ht]
    simp only [settle, List.map_map, fresh_fresh hmark, hfresh]

theorem fetch_settle {s t : TokenReader} (h : s.fetch = some t) :
    s.dropStale = some s.settle ∧ s.settle.fetch = some t := by
  obtain ⟨u, hu, ht⟩ := Option.bind_eq_some_iff.1 h
  obtain ⟨hdrop, htoken⟩ := toToken_settle hu
  exact ⟨hdrop, Option.bind_eq_some_iff.2 ⟨u, htoken, ht⟩⟩

/-! ### Handing out -/

/-- A reader that reads up to the end of its text; it ends without candidates.  All tokens but the
one of the end take a character at least. -/
inductive Reads : TokenReader → TokenReader → Prop
  | done {e : TokenReader} (candidate : e.candidate = none) (outer : e.outer = []) : Reads e e
  | last {s e : TokenReader} (fetch : s.fetch = some e) (candidate : e.candidate = none)
      (outer : e.outer = []) : Reads s e
  | more {s s' e : TokenReader} (fetch : s.fetch = some s')
      (shorter : s'.input.rest.length < s.input.rest.length) (rest : Reads s' e) : Reads s e

/-- A reader that has handed out a token reads up to the same end. -/
theorem Reads.pop {s e : TokenReader} (h : Reads s e) (hb : s.Bounded (s.taken + 1)) :
    Reads s.pop e.pop ∧ e.queue.head? = s.queue.head? := by
  induction h with
  | done candidate outer => exact ⟨.done candidate outer, rfl⟩
  | @last s e fetch candidate outer =>
    have hfetch : s.pop.fetch = some e.pop := by
      rw [steady_fetch.pop hb, fetch]
      rfl
    exact ⟨.last hfetch candidate outer, steady_fetch.head hb fetch⟩
  | @more s s' e fetch shorter _ ih =>
    have hfetch : s.pop.fetch = some s'.pop := by
      rw [steady_fetch.pop hb, fetch]
      rfl
    have hb' : s'.Bounded (s'.taken + 1) := by
      rw [steady_fetch.taken fetch]
      exact steady_fetch.bounded fetch hb
    obtain ⟨hrest, hhead⟩ := ih hb'
    exact ⟨.more hfetch shorter hrest, hhead.trans (steady_fetch.head hb fetch)⟩

theorem bounded_of_not_isHeld {s : TokenReader} (hb : s.Bounded s.taken) (queue : s.queue ≠ [])
    (h : s.isHeld = false) : s.Bounded (s.taken + 1) := by
  have hlength := List.length_pos_of_ne_nil queue
  refine ⟨fun o ho c hc => ?_, by omega⟩
  have hle := hb.numbers o ho c hc
  have hne : c.number ≠ s.taken := by
    intro heq
    have hheld : s.isHeld = true := by
      refine List.any_eq_true.2 ⟨o, ho, ?_⟩
      rw [Option.mem_def.1 hc]
      exact decide_eq_true heq
    rw [h] at hheld
    cases hheld
  omega

/-- Handing out the next token takes reading another one, or gives the first token of the queue. -/
theorem next_of_fetch {s s' : TokenReader} (fetch : s.fetch = some s') (hb : s.Bounded s.taken)
    (fuel : Nat) : s.next (fuel + 1) = s'.next fuel ∨
      ∃ t q, s.queue = t :: q ∧ s.settle.Bounded (s.taken + 1) ∧
        s.next (fuel + 1) = some (t, s.settle.pop) := by
  obtain ⟨hdrop, hsettle⟩ := fetch_settle fetch
  rw [next]
  split
  · rw [fetch]
    exact .inl rfl
  · rename_i t q htq
    rw [hdrop]
    by_cases hheld : s.settle.isHeld = true
    · -- a candidate in front of the first token has the reader read on, from where it is settled
      left
      show (if s.settle.isHeld then s.settle.fetch >>= next fuel else _) = _
      rw [if_pos hheld, hsettle]
      rfl
    · right
      have hqueue : s.settle.queue = t :: q := htq
      have hbound : s.settle.Bounded s.taken := steady_dropStale.bounded hdrop hb
      refine ⟨t, q, htq, bounded_of_not_isHeld hbound ?_ (Bool.eq_false_of_not_eq_true hheld), ?_⟩
      · rw [hqueue]
        exact List.cons_ne_nil _ _
      · show (if s.settle.isHeld then _ else some (t, { s.settle with
          queue := q, taken := s.settle.taken + 1 })) = _
        rw [if_neg hheld, TokenReader.pop, hqueue]
        rfl

theorem next_of_done {e : TokenReader} (candidate : e.candidate = none) (outer : e.outer = [])
    {t : Token} {q : List Token} (queue : e.queue = t :: q) {fuel : Nat} (hfuel : 0 < fuel) :
    e.next fuel = some (t, e.pop) := by
  obtain ⟨fuel, rfl⟩ := Nat.exists_eq_succ_of_ne_zero hfuel.ne'
  have hdrop : e.dropStale = some e := by
    rw [dropStale_eq_some, settle, candidate, outer]
    refine ⟨fun o ho => ?_, ?_⟩
    · obtain rfl := List.mem_singleton.1 ho
      rfl
    · cases e
      cases candidate
      cases outer
      rfl
  have hheld : e.isHeld = false := by
    rw [isHeld, candidate, outer]
    rfl
  rw [next, queue]
  show (e.dropStale >>= fun s => if s.isHeld then s.fetch >>= next fuel
    else some (t, { s with queue := q, taken := s.taken + 1 })) = _
  rw [hdrop]
  show (if e.isHeld then _ else some (t, { e with queue := q, taken := e.taken + 1 })) = _
  rw [hheld, TokenReader.pop, queue]
  rfl

/-- Nothing is asked of a reader without candidates. -/
theorem bounded_pop_of_done {e : TokenReader} (candidate : e.candidate = none)
    (outer : e.outer = []) : e.pop.Bounded e.pop.taken := by
  refine ⟨fun o ho c hc => ?_, Nat.le_add_right _ _⟩
  have hnone : o = none := by simpa [TokenReader.pop, candidate, outer] using ho
  rw [hnone] at hc
  cases hc

/-- A token that is handed out is the first one of the queue at the end. -/
theorem Reads.handOut {s e : TokenReader} (h : Reads s e) (hb : s.Bounded (s.taken + 1))
    {t t' : Token} {q q' : List Token} (queue : e.queue = t :: q) (head : s.queue = t' :: q') :
    t' = t ∧ Reads s.pop e.pop ∧ s.pop.Bounded s.pop.taken := by
  obtain ⟨hreads, hhead⟩ := h.pop hb
  rw [queue, head] at hhead
  exact ⟨(Option.some.inj hhead).symm, hreads, hb.numbers, Nat.le_add_right _ _⟩

theorem next_of_reads {s e : TokenReader} (h : Reads s e) (hb : s.Bounded s.taken) {t : Token}
    {q : List Token} (queue : e.queue = t :: q) {fuel : Nat}
    (hfuel : s.input.rest.length + 2 ≤ fuel) :
    ∃ s', s.next fuel = some (t, s') ∧ Reads s' e.pop ∧ s'.Bounded s'.taken := by
  -- reading ahead takes a character for each unit of fuel, except at the end of the text
  induction h generalizing fuel with
  | done candidate outer =>
    exact ⟨_, next_of_done candidate outer queue (by omega), .done candidate outer,
      bounded_pop_of_done candidate outer⟩
  | @last s e fetch candidate outer =>
    obtain ⟨fuel, rfl⟩ := Nat.exists_eq_succ_of_ne_zero (Nat.ne_zero_of_lt hfuel)
    obtain hnext | ⟨t', q', htq, hbound, hnext⟩ := next_of_fetch fetch hb fuel
    · refine ⟨e.pop, ?_, .done candidate outer, bounded_pop_of_done candidate outer⟩
      rw [hnext, next_of_done candidate outer queue (by omega)]
    · obtain ⟨rfl, hreads, hb'⟩ :=
        (Reads.last (fetch_settle fetch).2 candidate outer).handOut hbound queue htq
      exact ⟨_, hnext, hreads, hb'⟩
  | @more s s' e fetch shorter rest ih =>
    obtain ⟨fuel, rfl⟩ := Nat.exists_eq_succ_of_ne_zero (Nat.ne_zero_of_lt hfuel)
    obtain hnext | ⟨t', q', htq, hbound, hnext⟩ := next_of_fetch fetch hb fuel
    · have hb' : s'.Bounded s'.taken := by
        rw [steady_fetch.taken fetch]
        exact steady_fetch.bounded fetch hb
      rw [hnext]
      exact ih hb' queue (by omega)
    · obtain ⟨rfl, hreads, hb'⟩ :=
        (Reads.more (fetch_settle fetch).2 shorter rest).handOut hbound queue htq
      exact ⟨_, hnext, hreads, hb'⟩

/-- **A reader that reads up to the end of its text hands out the queue that it ends with.** -/
theorem tokens_of_reads {s e : TokenReader} (h : Reads s e) (hb : s.Bounded s.taken)
    {q : List Token} {m : Mark} (queue : e.queue = q ++ [⟨.streamEnd, m⟩])
    (inner : ∀ t ∈ q, t.kind ≠ .streamEnd) {fuel : Nat} (hfuel : q.length < fuel) :
    s.tokens fuel = e.queue := by
  induction q generalizing s e fuel with
  | nil =>
    obtain ⟨fuel, rfl⟩ := Nat.exists_eq_succ_of_ne_zero (Nat.ne_zero_of_lt hfuel)
    obtain ⟨s', hnext, -, -⟩ := next_of_reads h hb queue le_rfl
    rw [tokens, hnext, queue]
    rfl
  | cons t q ih =>
    obtain ⟨fuel, rfl⟩ := Nat.exists_eq_succ_of_ne_zero (Nat.ne_zero_of_lt hfuel)
    obtain ⟨ht, hq⟩ := List.forall_mem_cons.1 inner
    obtain ⟨s', hnext, hreads, hb'⟩ := next_of_reads h hb queue le_rfl
    have hpop : e.pop.queue = q ++ [⟨.streamEnd, m⟩] := by
      rw [TokenReader.pop, queue]
      rfl
    rw [tokens, hnext, queue]
    show t :: (if t.kind = .streamEnd then [] else s'.tokens fuel) = _
    rw [if_neg ht, ih hreads hb' hpop hq (Nat.lt_of_succ_lt_succ hfuel), hpop]
    rfl

end SszRecord.Yaml.TokenReader

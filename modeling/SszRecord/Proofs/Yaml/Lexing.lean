/-
Reading the tokens that flow texts are made of.

A flow text is a single line and its brackets are balanced, so little of the state of the reader
matters: no block is open and no candidate is required (`Calm`).  A spot says what text is left, how
many brackets are open and whether a key may begin, and `Lexes kinds a b` says that every reader at
`a` gets to `b` by tokens of the given kinds.

* `Lexes.trans` : texts behind one another;
* `lexes_open`, `lexes_close`, `lexes_comma`, `lexes_plain`, `lexes_quoted` : one token;
* `lexes_key` : a key with its colon, which turns the word in front of it into a key.
-/
import Mathlib
import SszRecord.Proofs.Yaml.Queue
import SszRecord.Proofs.Yaml.Scalars

namespace SszRecord.Yaml.TokenReader

/-! ### Calm readers -/

/-- A reader outside of all blocks, without required candidates, of a text that is not cut off. -/
structure Calm (s : TokenReader) : Prop where
  whole : s.isCut = false
  noBlocks : s.blocks = []
  optional : ∀ o ∈ s.candidate :: s.outer, ∀ c ∈ o, c.isRequired = false

theorem optional_none : ∀ c ∈ (none : Option Candidate), c.isRequired = false := by
  intro c hc
  cases hc

/-- A calm reader stays calm when its candidate is given up or replaced by an optional one. -/
theorem Calm.of_same {s t : TokenReader} (h : s.Calm) (whole : t.isCut = s.isCut)
    (blocks : t.blocks = s.blocks) (outer : t.outer = s.outer)
    (candidate : ∀ c ∈ t.candidate, c.isRequired = false) : t.Calm := by
  refine ⟨whole.trans h.whole, blocks.trans h.noBlocks, List.forall_mem_cons.2 ⟨candidate, ?_⟩⟩
  rw [outer]
  exact (List.forall_mem_cons.1 h.optional).2

theorem closeBlocks_of_noBlocks {s : TokenReader} (h : s.blocks = []) (ends : Nat → Bool) :
    s.closeBlocks ends = s := by
  cases s
  cases h
  unfold closeBlocks
  split
  · rfl
  · simp only [List.dropWhile_nil, Nat.sub_self, List.replicate_zero, List.append_nil]

theorem openBlock_of_inBrackets {s : TokenReader} (h : s.inBrackets = true) (kind : Token.Kind)
    (number? : Option Nat) (m : Mark) : s.openBlock kind number? m = s := by
  rw [openBlock, h]
  rfl

theorem Calm.settle {s : TokenReader} (h : s.Calm) : s.settle.Calm := by
  refine ⟨h.whole, h.noBlocks, fun o ho c hc => ?_⟩
  obtain ⟨o', ho', rfl⟩ : ∃ o' ∈ s.candidate :: s.outer, fresh s.input.mark o' = o :=
    List.mem_map.1 ho
  exact h.optional o' ho' c (mem_of_mem_fresh hc)

theorem Calm.dropStale {s : TokenReader} (h : s.Calm) : s.dropStale = some s.settle := by
  refine dropStale_eq_some.2 ⟨fun o ho => ?_, rfl⟩
  cases o with
  | none => rfl
  | some c =>
    rw [isMissed, Option.any_some, h.optional _ ho c rfl]
    exact Bool.and_false _

theorem Calm.dropCandidate {s : TokenReader} (h : s.Calm) :
    s.dropCandidate = some { s with candidate := none } := by
  have hrequired : s.candidate.any (·.isRequired) = false := by
    cases hc : s.candidate with
    | none => rfl
    | some c => exact h.optional _ List.mem_cons_self c hc
  rw [TokenReader.dropCandidate, hrequired]
  rfl

/-- A candidate that is saved is not required. -/
theorem Calm.saveCandidate {s : TokenReader} (h : s.Calm) :
    ∃ o : Option Candidate, s.saveCandidate = some { s with candidate := o } ∧
      (∀ c ∈ o, c.isRequired = false) ∧ (s.keyAllowed = true →
        o = some ⟨false, s.taken + s.queue.length, s.input.mark⟩) := by
  by_cases hkey : s.keyAllowed = true
  · -- a key is required only at the margin of a block, and no block is open
    have hmargin : s.margin = 0 := by rw [margin, h.noBlocks]
    have hrequired : (!s.inBrackets && decide (s.margin = s.input.mark.column + 1)) = false := by
      rw [hmargin, decide_eq_false (Nat.succ_ne_zero _).symm, Bool.and_false]
    refine ⟨some ⟨false, s.taken + s.queue.length, s.input.mark⟩, ?_, ?_, fun _ => rfl⟩
    · rw [TokenReader.saveCandidate, if_neg (by rw [hkey]; exact Bool.false_ne_true),
        h.dropCandidate, hrequired]
      rfl
    · intro c hc
      cases hc
      rfl
  · refine ⟨s.candidate, ?_, fun c hc => h.optional _ List.mem_cons_self c hc,
      fun htrue => absurd htrue hkey⟩
    rw [TokenReader.saveCandidate, if_pos (by rw [Bool.eq_false_of_not_eq_true hkey]; rfl)]

/-! ### In front of a token -/

/-- Characters that no space and no comment begins with. -/
def isMark (c : Char) : Bool := !isSpace c && c ≠ '#' && c ≠ '\ufeff'

theorem head?_spaces {n : Nat} {cs : List Char} {c : Char} (h : c ≠ ' ')
    (hcs : cs.head? ≠ some c) : (List.replicate n ' ' ++ cs).head? ≠ some c := by
  cases n with
  | zero => exact hcs
  | succ n =>
    intro heq
    exact h (Option.some.inj heq).symm

theorem skipLine_spaces {i : Input} {n : Nat} {cs : List Char}
    (hrest : i.rest = List.replicate n ' ' ++ cs) (hmark : ∀ c ∈ cs.head?, isMark c = true)
    (inBrackets keyAllowed : Bool) : skipLine inBrackets keyAllowed i = i.advance n := by
  have hne {c : Char} (hc : isMark c = false) : cs.head? ≠ some c := by
    intro hhead
    exact Bool.false_ne_true (hc.symm.trans (hmark c hhead))
  have hbom : i.rest.head? ≠ some '\ufeff' := by
    rw [hrest]
    exact head?_spaces (by decide) (hne (by decide))
  have hspaces (p : Char → Bool) (hp : p ' ' = true) (hspace : ∀ c, p c = true → isSpace c = true) :
      (i.rest.takeWhile p).length = n := by
    have hcs : cs.takeWhile p = [] := by
      cases cs with
      | nil => rfl
      | cons c cs =>
        have hc := hmark c rfl
        refine List.takeWhile_cons_of_neg fun hpc => ?_
        rw [isMark, hspace c hpc] at hc
        cases hc
    rw [hrest, List.takeWhile_append_of_pos, hcs, List.append_nil, List.length_replicate]
    intro c hc
    rw [List.eq_of_mem_replicate hc]
    exact hp
  have hhash : (i.advance n).rest.head? ≠ some '#' := by
    rw [Input.advance_rest, hrest, List.drop_left' List.length_replicate]
    exact hne (by decide)
  have hskip : i.skipWhile (fun c => c = ' ' || (c = '\t' && (inBrackets || !keyAllowed))) =
      i.advance n := by
    rw [Input.skipWhile, hspaces _ (by simp)]
    intro c hc
    simp only [Bool.or_eq_true, Bool.and_eq_true, decide_eq_true_eq] at hc
    obtain rfl | ⟨rfl, -⟩ := hc <;> rfl
  rw [skipLine, decide_eq_false hbom, Bool.and_false]
  show (if (i.skipWhile _).rest.head? = some '#' then _ else i.skipWhile _) = _
  rw [hskip, if_neg hhash]

/-- A calm reader passes over the spaces in front of a token and drops stale candidates. -/
theorem Calm.toToken {s : TokenReader} (h : s.Calm) {n : Nat} {cs : List Char}
    (hrest : s.input.rest = List.replicate n ' ' ++ cs) (hmark : ∀ c ∈ cs.head?, isMark c = true) :
    s.toToken = some { s with input := s.input.advance n }.settle := by
  have hline := skipLine_spaces hrest hmark s.inBrackets s.keyAllowed
  have hbreak : (s.input.advance n).rest.head?.any isBreak = false := by
    rw [Input.advance_rest, hrest, List.drop_left' List.length_replicate]
    cases hcs : cs.head? with
    | none => rfl
    | some c =>
      have hc := hmark c hcs
      rw [Option.any_some, ← Bool.not_eq_true]
      intro hbreak
      rw [isMark, isSpace, hbreak, Bool.or_true] at hc
      cases hc
  have hmoved : Calm { s with input := s.input.advance n } := ⟨h.whole, h.noBlocks, h.optional⟩
  rw [TokenReader.toToken, skipSpace_succ, hline, hbreak]
  show { s with input := s.input.advance n }.dropStale >>= _ = _
  rw [hmoved.dropStale]
  show some (closeBlocks _ _) = _
  rw [closeBlocks_of_noBlocks hmoved.settle.noBlocks]

/-! ### Spots -/

/-- A place in a flow text: what is left, how many brackets are open, and whether a key may begin
for certain. -/
structure Spot where
  rest : List Char
  depth : Nat
  ready : Bool

/-- A calm reader in front of a spot. -/
structure Front (a : Spot) (s : TokenReader) : Prop where
  calm : s.Calm
  rest : s.input.rest = a.rest
  depth : s.outer.length = a.depth
  ready : a.ready = true → s.keyAllowed = true

/-- A calm reader in front of a spot or in front of spaces before it. -/
def Near (a : Spot) (s : TokenReader) : Prop :=
  ∃ n, s.Front ⟨List.replicate n ' ' ++ a.rest, a.depth, a.ready⟩

theorem Front.settle {a : Spot} {s : TokenReader} (h : s.Front a) : s.settle.Front a := by
  refine ⟨h.calm.settle, h.rest, ?_, h.ready⟩
  rw [← h.depth]
  exact List.length_map _

/-- A reader reads a token and at least one character for it. -/
def Fetches (s s' : TokenReader) : Prop :=
  s.fetch = some s' ∧ s'.input.rest.length < s.input.rest.length

/-- Readers at a spot get to another one by tokens of the given kinds. -/
structure Lexes (kinds : List Token.Kind) (a b : Spot) : Prop where
  inner : ∀ kind ∈ kinds, kind ≠ .streamEnd
  fewer : kinds.length + b.rest.length ≤ a.rest.length
  reach : ∀ s : TokenReader, s.Near a → ∃ s' tokens, Relation.ReflTransGen Fetches s s' ∧
    s'.queue = s.queue ++ tokens ∧ tokens.map Token.kind = kinds ∧ s'.Near b

theorem Lexes.refl (a : Spot) : Lexes [] a a :=
  ⟨List.forall_mem_nil _, (Nat.zero_add _).le,
    fun s hs => ⟨s, [], .refl, (List.append_nil _).symm, rfl, hs⟩⟩

theorem Lexes.trans {ks ks' : List Token.Kind} {a b c : Spot} (h : Lexes ks a b)
    (h' : Lexes ks' b c) : Lexes (ks ++ ks') a c := by
  have hfewer := h.fewer
  have hfewer' := h'.fewer
  refine ⟨List.forall_mem_append.2 ⟨h.inner, h'.inner⟩, by rw [List.length_append]; omega,
    fun s hs => ?_⟩
  obtain ⟨t, tokens, hst, hqueue, hkinds, ht⟩ := h.reach s hs
  obtain ⟨u, tokens', htu, hqueue', hkinds', hu⟩ := h'.reach t ht
  refine ⟨u, tokens ++ tokens', hst.trans htu, ?_, ?_, hu⟩
  · rw [hqueue', hqueue, List.append_assoc]
  · rw [List.map_append, hkinds, hkinds']

theorem fetch_of_takeNext {s t u : TokenReader} (htoken : s.toToken = some t) (ht : t.isCut = false)
    (hnext : t.takeNext = some u) (hu : u.isCut = false) : s.fetch = some u := by
  rw [fetch, htoken]
  show (if t.isCut && _ then none else t.takeNext >>= fun u =>
    if u.isCut && _ then none else some u) = _
  rw [ht, hnext]
  show (if u.isCut && _ then none else some u) = _
  rw [hu]
  rfl

/-- A reader gets in front of a spot before it reads on. -/
theorem Near.toToken {a : Spot} {s : TokenReader} (h : s.Near a)
    (hmark : ∀ c ∈ a.rest.head?, isMark c = true) :
    ∃ t, s.toToken = some t ∧ t.Front a ∧ t.queue = s.queue ∧
      t.input.rest.length ≤ s.input.rest.length := by
  obtain ⟨n, h⟩ := h
  have hmoved : Front a { s with input := s.input.advance n } := by
    refine ⟨⟨h.calm.whole, h.calm.noBlocks, h.calm.optional⟩, ?_, h.depth, h.ready⟩
    rw [Input.advance_rest, h.rest]
    exact List.drop_left' List.length_replicate
  refine ⟨_, h.calm.toToken h.rest hmark, hmoved.settle, rfl, ?_⟩
  show (s.input.rest.drop n).length ≤ _
  rw [List.length_drop]
  exact Nat.sub_le _ _

/-- A token by itself, with `n` spaces behind it. -/
theorem lexes_token {kind : Token.Kind} {a b : Spot} (n : Nat) (hkind : kind ≠ .streamEnd)
    (hmark : ∀ c ∈ a.rest.head?, isMark c = true) (shorter : n + b.rest.length < a.rest.length)
    (h : ∀ s : TokenReader, s.Front a → ∃ s', s.takeNext = some s' ∧
      s'.queue = s.queue ++ [⟨kind, s.input.mark⟩] ∧
      s'.Front ⟨List.replicate n ' ' ++ b.rest, b.depth, b.ready⟩) : Lexes [kind] a b := by
  refine ⟨List.forall_mem_singleton.2 hkind, by rw [List.length_singleton]; omega, fun s hs => ?_⟩
  obtain ⟨t, htoken, hfront, hqueue, hlength⟩ := hs.toToken hmark
  obtain ⟨u, hnext, hqueue', hu⟩ := h t hfront
  have hfetch := fetch_of_takeNext htoken hfront.calm.whole hnext hu.calm.whole
  have hshorter : u.input.rest.length < s.input.rest.length := by
    rw [hfront.rest] at hlength
    rw [hu.rest, List.length_append, List.length_replicate]
    omega
  refine ⟨u, [⟨kind, t.input.mark⟩], .single ⟨hfetch, hshorter⟩, ?_, rfl, n, hu⟩
  rw [hqueue', hqueue]

/-! ### Single tokens -/

/-- No document is marked where a character other than a dash or a point stands. -/
theorem indicator_eq_false {s : TokenReader} {c : Char} {cs : List Char}
    (hrest : s.input.rest = c :: cs) (hdash : c ≠ '-') (hdot : c ≠ '.') :
    s.input.atIndicator '-' = false ∧ s.input.atIndicator '.' = false := by
  have hne {d : Char} (hd : c ≠ d) : s.input.rest.head? ≠ some d := by
    rw [hrest, List.head?_cons, Ne, Option.some_inj]
    exact hd
  exact ⟨atIndicator_eq_false (hne hdash), atIndicator_eq_false (hne hdot)⟩

theorem isMark_head {c : Char} (h : isMark c = true) (cs : List Char) :
    ∀ d ∈ (c :: cs).head?, isMark d = true := by
  intro d hd
  cases hd
  exact h

theorem lexes_open {c : Char} {kind : Token.Kind}
    (hkind : c = '[' ∧ kind = .sequenceOpen ∨ c = '\x7b' ∧ kind = .mappingOpen)
    (rest : List Char) (depth : Nat) (ready : Bool) :
    Lexes [kind] ⟨c :: rest, depth, ready⟩ ⟨rest, depth + 1, true⟩ := by
  have hmark : isMark c = true := by obtain ⟨rfl, -⟩ | ⟨rfl, -⟩ := hkind <;> decide
  have hinner : kind ≠ .streamEnd := by obtain ⟨-, rfl⟩ | ⟨-, rfl⟩ := hkind <;> simp
  refine lexes_token 0 hinner (isMark_head hmark rest) (by simp) fun s hs => ?_
  obtain ⟨o, hsave, hoptional, -⟩ := hs.calm.saveCandidate
  have hnext : s.takeNext = s.takeOpen kind := by
    obtain ⟨rfl, rfl⟩ | ⟨rfl, rfl⟩ := hkind
    · obtain ⟨hdash, hdot⟩ := indicator_eq_false hs.rest (by decide) (by decide)
      simp [takeNext, hs.rest, hdash, hdot]
    · obtain ⟨hdash, hdot⟩ := indicator_eq_false hs.rest (by decide) (by decide)
      simp [takeNext, hs.rest, hdash, hdot]
  rw [hnext, takeOpen, hsave]
  refine ⟨_, rfl, rfl, ⟨hs.calm.whole, hs.calm.noBlocks, ?_⟩, ?_, ?_, fun _ => rfl⟩
  · exact List.forall_mem_cons.2 ⟨optional_none, List.forall_mem_cons.2 ⟨hoptional,
      (List.forall_mem_cons.1 hs.calm.optional).2⟩⟩
  · show s.input.rest.drop 1 = _
    rw [hs.rest]
    rfl
  · exact congrArg (· + 1) hs.depth

theorem lexes_close {c : Char} {kind : Token.Kind}
    (hkind : c = ']' ∧ kind = .sequenceClose ∨ c = '\x7d' ∧ kind = .mappingClose)
    (rest : List Char) (depth : Nat) (ready : Bool) :
    Lexes [kind] ⟨c :: rest, depth + 1, ready⟩ ⟨rest, depth, false⟩ := by
  have hmark : isMark c = true := by obtain ⟨rfl, -⟩ | ⟨rfl, -⟩ := hkind <;> decide
  have hinner : kind ≠ .streamEnd := by obtain ⟨-, rfl⟩ | ⟨-, rfl⟩ := hkind <;> simp
  refine lexes_token 0 hinner (isMark_head hmark rest) (by simp) fun s hs => ?_
  obtain ⟨o, os, houter⟩ := List.exists_cons_of_length_eq_add_one hs.depth
  have hnext : s.takeNext = s.takeClose kind := by
    obtain ⟨rfl, rfl⟩ | ⟨rfl, rfl⟩ := hkind
    · obtain ⟨hdash, hdot⟩ := indicator_eq_false hs.rest (by decide) (by decide)
      simp [takeNext, hs.rest, hdash, hdot]
    · obtain ⟨hdash, hdot⟩ := indicator_eq_false hs.rest (by decide) (by decide)
      simp [takeNext, hs.rest, hdash, hdot]
  have houters := (List.forall_mem_cons.1 hs.calm.optional).2
  have hdepth := hs.depth
  rw [houter] at houters hdepth
  have hclose : s.takeClose kind =
      some ({ s with candidate := o, outer := os, keyAllowed := false }.take kind 1) := by
    rw [takeClose, hs.calm.dropCandidate]
    show some ({ ({ s with candidate := none } : TokenReader).leave with
      keyAllowed := false }.take kind 1) = _
    rw [leave, houter]
  refine ⟨_, hnext.trans hclose, rfl, ⟨hs.calm.whole, hs.calm.noBlocks, houters⟩, ?_,
    Nat.succ.inj hdepth, (by simp)⟩
  show s.input.rest.drop 1 = _
  rw [hs.rest]
  rfl

theorem lexes_comma (rest : List Char) (depth : Nat) (ready : Bool) :
    Lexes [.comma] ⟨',' :: ' ' :: rest, depth, ready⟩ ⟨rest, depth, true⟩ := by
  refine lexes_token 1 (by simp) (isMark_head rfl _) (by simp; omega) fun s hs => ?_
  obtain ⟨hdash, hdot⟩ := indicator_eq_false hs.rest (by decide) (by decide)
  have hnext : s.takeNext = s.takeComma := by simp [takeNext, hs.rest, hdash, hdot]
  rw [hnext, takeComma, hs.calm.dropCandidate]
  refine ⟨_, rfl, rfl, hs.calm.of_same rfl rfl rfl optional_none, ?_, hs.depth, fun _ => rfl⟩
  show s.input.rest.drop 1 = _
  rw [hs.rest]
  rfl

/-! ### Scalars -/

theorem isIndicator_eq_false {c : Char} (h : isNameChar c = true) : isIndicator c = false := by
  have hlist : ['-', '?', ':', ',', '[', ']', '\x7b', '\x7d', '#', '&', '*', '!', '|', '>',
      '\'', '"', '%', '@', '\x60'].all (fun d => !isNameChar d) = true := rfl
  rw [isIndicator, isSpace_eq_false h, Bool.false_or, ← Bool.not_eq_true, List.contains_iff_mem,
    String.toList_ofList]
  intro hc
  have hname := List.all_eq_true.1 hlist c hc
  rw [h] at hname
  cases hname

theorem isMark_of_isNameChar {c : Char} (h : isNameChar c = true) : isMark c = true := by
  have hhash : c ≠ '#' := ne_of_isNameChar h (by decide)
  have hbom : c ≠ '\ufeff' := ne_of_isNameChar h (by decide)
  rw [isMark, isSpace_eq_false h, decide_eq_true hhash, decide_eq_true hbom]
  rfl

theorem inBrackets_of_depth {a : Spot} {s : TokenReader} (h : s.Front a) {depth : Nat}
    (hdepth : a.depth = depth + 1) : s.inBrackets = true := by
  obtain ⟨o, os, houter⟩ := List.exists_cons_of_length_eq_add_one (h.depth.trans hdepth)
  rw [inBrackets, houter]
  rfl

/-- A word is a plain scalar. -/
theorem takeNext_word {s : TokenReader} {c : Char} {cs : List Char} (hc : isNameChar c = true)
    (hrest : s.input.rest = c :: cs) : s.takeNext = s.takePlain := by
  have hne {d : Char} (hd : isNameChar d = false) : decide (c = d) = false :=
    decide_eq_false (ne_of_isNameChar hc hd)
  have hne' {d : Char} (hd : isNameChar d = false) : ¬c = d := ne_of_isNameChar hc hd
  obtain ⟨hdash, hdot⟩ := indicator_eq_false hrest (hne' (by decide)) (hne' (by decide))
  have hplain : beginsPlain s.inBrackets c cs = true := by
    rw [beginsPlain, isIndicator_eq_false hc]
    rfl
  rw [takeNext, hrest]
  simp only [hdash, hdot, hplain, hne (d := '%') (by decide), hne (d := '-') (by decide),
    hne (d := '?') (by decide), hne (d := ':') (by decide), hne (d := '|') (by decide),
    hne (d := '>') (by decide), hne' (d := '[') (by decide), hne' (d := '\x7b') (by decide),
    hne' (d := ']') (by decide), hne' (d := '\x7d') (by decide), hne' (d := ',') (by decide),
    hne' (d := '*') (by decide), hne' (d := '&') (by decide), hne' (d := '!') (by decide),
    hne' (d := '\'') (by decide), hne' (d := '"') (by decide), Bool.false_and, if_false,
    Bool.false_eq_true, if_true]

/-- A word in brackets is taken as a plain scalar, and is a candidate where a key may begin. -/
theorem takeNext_plain {s : TokenReader} {word stop : List Char} {depth : Nat} {ready : Bool}
    (hs : s.Front ⟨word ++ stop, depth + 1, ready⟩) (nonempty : word ≠ [])
    (names : ∀ c ∈ word, isNameChar c = true) (hstop : EndsPlain stop) :
    ∃ s', s.takeNext = some s' ∧
      s'.queue = s.queue ++ [⟨.scalar (String.ofList word) true, s.input.mark⟩] ∧
      s'.Front ⟨stop, depth + 1, false⟩ ∧ s'.taken = s.taken ∧
      s'.input = s.input.advance word.length ∧ (ready = true →
        s'.candidate = some ⟨false, s.taken + s.queue.length, s.input.mark⟩) := by
  obtain ⟨o, hsave, hoptional, hready⟩ := hs.calm.saveCandidate
  obtain ⟨c, cs, rfl⟩ := List.exists_cons_of_ne_nil nonempty
  have htake : s.takePlain = some ({ s with
      candidate := o
      keyAllowed := false
      input := s.input.advance (c :: cs).length }.push (.scalar (String.ofList (c :: cs)) true)
        s.input.mark) := by
    rw [takePlain, hsave]
    show (readPlain s.inBrackets s.margin s.input >>= fun p => some ({ s with
      candidate := o
      keyAllowed := p.2.2
      input := p.2.1 }.push (.scalar p.1 true) s.input.mark)) = _
    rw [inBrackets_of_depth hs rfl, readPlain_word nonempty names hstop hs.rest]
    rfl
  refine ⟨_, (takeNext_word (names c List.mem_cons_self) hs.rest).trans htake, rfl,
    ⟨hs.calm.of_same rfl rfl rfl hoptional, ?_, hs.depth, (by simp)⟩, rfl, rfl,
    fun h => hready (hs.ready h)⟩
  show s.input.rest.drop (c :: cs).length = _
  rw [hs.rest]
  exact List.drop_left

theorem isMark_word {word : List Char} (nonempty : word ≠ [])
    (names : ∀ c ∈ word, isNameChar c = true) (stop : List Char) :
    ∀ c ∈ (word ++ stop).head?, isMark c = true := by
  obtain ⟨c, cs, rfl⟩ := List.exists_cons_of_ne_nil nonempty
  exact isMark_head (isMark_of_isNameChar (names c List.mem_cons_self)) _

theorem lexes_plain {word stop : List Char} (nonempty : word ≠ [])
    (names : ∀ c ∈ word, isNameChar c = true) (hstop : EndsPlain stop) (depth : Nat)
    (ready : Bool) : Lexes [.scalar (String.ofList word) true] ⟨word ++ stop, depth + 1, ready⟩
      ⟨stop, depth + 1, false⟩ := by
  have hlength := List.length_pos_of_ne_nil nonempty
  refine lexes_token 0 (by simp) (isMark_word nonempty names stop) (by simp; omega) fun s hs => ?_
  obtain ⟨s', hnext, hqueue, hfront, -⟩ := takeNext_plain hs nonempty names hstop
  exact ⟨s', hnext, hqueue, hfront⟩

theorem lexes_quoted {word stop : List Char} (names : ∀ c ∈ word, isNameChar c = true)
    (hstop : stop.head? ≠ some '\'') (depth : Nat) (ready : Bool) :
    Lexes [.scalar (String.ofList word) false] ⟨'\'' :: word ++ '\'' :: stop, depth, ready⟩
      ⟨stop, depth, false⟩ := by
  refine lexes_token 0 (by simp) (isMark_head rfl _) (by simp; omega) fun s hs => ?_
  obtain ⟨o, hsave, hoptional, -⟩ := hs.calm.saveCandidate
  obtain ⟨j, hread, hj⟩ := readQuoted_word names hstop hs.rest
  obtain ⟨hdash, hdot⟩ := indicator_eq_false hs.rest (by decide) (by decide)
  have hnext : s.takeNext = s.takeQuoted true := by
    have hrest : s.input.rest = '\'' :: (word ++ '\'' :: stop) := hs.rest
    simp [takeNext, hrest, hdash, hdot]
  have htake : s.takeQuoted true = some ({ s with
      candidate := o
      keyAllowed := false
      input := j }.push (.scalar (String.ofList word) false) s.input.mark) := by
    rw [takeQuoted, hsave]
    show (readQuoted true s.input >>= _) = _
    rw [hread]
    rfl
  exact ⟨_, hnext.trans htake, rfl, hs.calm.of_same rfl rfl rfl hoptional, hj, hs.depth, (by simp)⟩

/-! ### Keys -/

theorem insertIdx_length_append {α : Type} (front behind : List α) (a : α) :
    (front ++ behind).insertIdx front.length a = front ++ a :: behind := by
  induction front with
  | nil => rfl
  | cons b front ih => rw [List.cons_append, List.length_cons, List.insertIdx_succ_cons, ih]; rfl

/-- A colon in brackets makes a key of the candidate. -/
theorem takeValue_of_candidate {s : TokenReader} (hs : s.inBrackets = true) {c : Candidate}
    (hc : s.candidate = some c) : s.takeValue = some ({ s.insertToken c.number .key c.mark with
      candidate := none
      keyAllowed := false }.take .value 1) := by
  have hopen : (s.insertToken c.number .key c.mark).openBlock .blockMapping (some c.number) c.mark =
      s.insertToken c.number .key c.mark :=
    openBlock_of_inBrackets (s := s.insertToken c.number .key c.mark) hs _ _ _
  rw [takeValue, hc]
  show some ({ (s.insertToken c.number .key c.mark).openBlock .blockMapping (some c.number)
      c.mark with
    candidate := none
    keyAllowed := false }.take .value 1) = _
  rw [hopen]

/-- A colon behind a word that is a candidate still. -/
theorem fetch_colon {s : TokenReader} {rest : List Char} {depth : Nat}
    (hs : s.Front ⟨':' :: ' ' :: rest, depth + 1, false⟩) {c : Candidate}
    (hc : s.candidate = some c) (hfresh : isStale s.input.mark c = false) {front : List Token}
    {word : Token} (queue : s.queue = front ++ [word])
    (number : c.number = s.taken + front.length) :
    ∃ s' m, s.fetch = some s' ∧
      s'.queue = front ++ [⟨.key, c.mark⟩, word, ⟨.value, m⟩] ∧
      s'.Front ⟨' ' :: rest, depth + 1, false⟩ := by
  have htoken := hs.calm.toToken (n := 0) hs.rest (isMark_head rfl _)
  have ht : Front ⟨':' :: ' ' :: rest, depth + 1, false⟩
      { s with input := s.input.advance 0 }.settle :=
    Front.settle ⟨⟨hs.calm.whole, hs.calm.noBlocks, hs.calm.optional⟩, hs.rest, hs.depth, hs.ready⟩
  have hcandidate : { s with input := s.input.advance 0 }.settle.candidate = some c := by
    show fresh s.input.mark s.candidate = some c
    rw [hc, fresh, Option.filter_some, hfresh]
    rfl
  have hqueue : { s with input := s.input.advance 0 }.settle.queue = front ++ [word] := queue
  have htaken : c.number - { s with input := s.input.advance 0 }.settle.taken = front.length := by
    rw [number]
    exact Nat.add_sub_cancel_left _ _
  generalize { s with input := s.input.advance 0 }.settle = t at htoken ht hcandidate hqueue htaken
  have hbrackets := inBrackets_of_depth ht rfl
  obtain ⟨hdash, hdot⟩ := indicator_eq_false ht.rest (by decide) (by decide)
  have hnext : t.takeNext = t.takeValue := by
    simp [takeNext, ht.rest, hdash, hdot, hbrackets]
  have hvalue := hnext.trans (takeValue_of_candidate hbrackets hcandidate)
  refine ⟨_, t.input.mark, fetch_of_takeNext htoken ht.calm.whole hvalue ht.calm.whole, ?_,
    ht.calm.of_same rfl rfl rfl optional_none, ?_, ht.depth, (by simp)⟩
  · show t.queue.insertIdx (c.number - t.taken) ⟨.key, c.mark⟩ ++ [⟨.value, t.input.mark⟩] = _
    rw [hqueue, htaken, insertIdx_length_append, List.append_assoc]
    rfl
  · show t.input.rest.drop 1 = _
    rw [ht.rest]
    rfl

/-- A key with its colon.  The key is a candidate until the colon, which is near enough. -/
theorem lexes_key {key : String} (name : IsName key) (rest : List Char) (depth : Nat) :
    Lexes [.key, .scalar key true, .value] ⟨key.toList ++ ':' :: ' ' :: rest, depth + 1, true⟩
      ⟨rest, depth + 1, false⟩ := by
  have hpos := List.length_pos_of_ne_nil name.nonempty
  have hlimit := name.length
  have hstop : EndsPlain (':' :: ' ' :: rest) := ⟨_, _, rfl, .inr (.inr (.inr ⟨rfl, rfl⟩))⟩
  refine ⟨by simp, by simp; omega, fun s hs => ?_⟩
  obtain ⟨t, htoken, ht, hqueue, hlength⟩ :=
    hs.toToken (isMark_word name.nonempty name.chars _)
  obtain ⟨u, hnext, hqueue', hu, htaken, hinput, hcandidate⟩ :=
    takeNext_plain ht name.nonempty name.chars hstop
  have hfetch := fetch_of_takeNext htoken ht.calm.whole hnext hu.calm.whole
  -- the colon is on the line of the key and not more than 1024 characters behind its beginning
  have hfresh : isStale u.input.mark ⟨false, t.taken + t.queue.length, t.input.mark⟩ = false := by
    rw [hinput]
    refine Bool.or_eq_false_iff.2 ⟨decide_eq_false (Nat.lt_irrefl _), decide_eq_false ?_⟩
    show ¬t.input.mark.index + 1024 < t.input.mark.index + key.toList.length
    omega
  obtain ⟨w, m, hcolon, hkinds, hw⟩ :=
    fetch_colon hu (hcandidate rfl) hfresh hqueue' (by rw [htaken])
  have hshorter : u.input.rest.length < s.input.rest.length := by
    have hword : t.input.rest.length = key.toList.length + u.input.rest.length := by
      rw [ht.rest, hu.rest, List.length_append]
    omega
  have hshorter' : w.input.rest.length < u.input.rest.length := by
    rw [hw.rest, hu.rest]
    exact Nat.lt_succ_self _
  rw [hqueue] at hkinds
  refine ⟨w, _, .tail (.single ⟨hfetch, hshorter⟩) ⟨hcolon, hshorter'⟩, hkinds, ?_, 1, hw⟩
  rw [String.ofList_toList]
  rfl

end SszRecord.Yaml.TokenReader

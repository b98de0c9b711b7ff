/-
The tokens of flow texts.

The text of a tree is read as the tokens of the tree, by induction on the tree (`lexes_flow`).
A text that is one object is read up to its end, and what has been read is handed out
(`tokens_flow`).
-/
import Mathlib
import SszRecord.Proofs.Yaml.Lexing

namespace SszRecord.Yaml.TokenReader

/-! ### Trees -/

/-- What stands behind a node in brackets: a comma or a closing bracket. -/
def Stops (rest : List Char) : Prop :=
  ∃ c cs, rest = c :: cs ∧ (c = ',' ∨ c = ']' ∨ c = '\x7d')

theorem Stops.endsPlain {rest : List Char} (h : Stops rest) : EndsPlain rest := by
  obtain ⟨c, cs, rfl, hc | hc | hc⟩ := h
  · exact ⟨c, cs, rfl, .inl hc⟩
  · exact ⟨c, cs, rfl, .inr (.inl hc)⟩
  · exact ⟨c, cs, rfl, .inr (.inr (.inl hc))⟩

theorem Stops.head?_ne {rest : List Char} (h : Stops rest) : rest.head? ≠ some '\'' := by
  obtain ⟨c, cs, rfl, hc⟩ := h
  rw [List.head?_cons, Ne, Option.some_inj]
  obtain rfl | rfl | rfl := hc <;> decide

theorem Lexes.weaken {ks : List Token.Kind} {a : Spot} {rest : List Char} {depth : Nat}
    {ready : Bool} (h : Lexes ks a ⟨rest, depth, ready⟩) : Lexes ks a ⟨rest, depth, false⟩ := by
  refine ⟨h.inner, h.fewer, fun s hs => ?_⟩
  obtain ⟨s', tokens, hchain, hqueue, hkinds, n, hfront⟩ := h.reach s hs
  exact ⟨s', tokens, hchain, hqueue, hkinds, n, hfront.calm, hfront.rest, hfront.depth, (by simp)⟩

/-- In front of a member a key may begin, behind the bracket as well as behind a comma. -/
theorem lexes_gap (isFirst : Bool) (rest : List Char) (depth : Nat) :
    Lexes (gapBefore [.comma] isFirst) ⟨gapBefore [',', ' '] isFirst ++ rest, depth, isFirst⟩
      ⟨rest, depth, true⟩ := by
  cases isFirst with
  | true => exact .refl _
  | false => exact lexes_comma rest depth false

/-- Nodes of which it is known that their texts are read in brackets. -/
def LexesInside (t : Json) : Prop := ∀ depth ready rest, Stops rest →
  Lexes (tokenKinds t) ⟨flow t ++ rest, depth + 1, ready⟩ ⟨rest, depth + 1, false⟩

theorem stops_items (items : List Json) (rest : List Char) :
    Stops (flowItems false items ++ ']' :: rest) := by
  cases items with
  | nil => exact ⟨']', rest, rfl, .inr (.inl rfl)⟩
  | cons item items => exact ⟨',', _, rfl, .inl rfl⟩

theorem stops_members (members : List (String × Json)) (rest : List Char) :
    Stops (flowMembers false members ++ '\x7d' :: rest) := by
  cases members with
  | nil => exact ⟨'\x7d', rest, rfl, .inr (.inr rfl)⟩
  | cons m members => exact ⟨',', _, rfl, .inl rfl⟩

theorem lexes_items {items : List Json} (h : ∀ item ∈ items, LexesInside item) (isFirst : Bool)
    (rest : List Char) (depth : Nat) :
    Lexes (itemKinds isFirst items)
      ⟨flowItems isFirst items ++ ']' :: rest, depth + 1, isFirst⟩
      ⟨']' :: rest, depth + 1, false⟩ := by
  induction items generalizing isFirst with
  | nil => exact (Lexes.refl _).weaken
  | cons item items ih =>
    obtain ⟨hitem, hitems⟩ := List.forall_mem_cons.1 h
    have hrest := hitem depth true _ (stops_items items rest)
    rw [itemKinds, flowItems, List.append_assoc, List.append_assoc, List.append_assoc]
    exact (lexes_gap isFirst _ _).trans (hrest.trans (ih hitems false))

theorem lexes_members {members : List (String × Json)} (names : ∀ m ∈ members, IsName m.1)
    (h : ∀ m ∈ members, LexesInside m.2) (isFirst : Bool) (rest : List Char) (depth : Nat) :
    Lexes (memberKinds isFirst members)
      ⟨flowMembers isFirst members ++ '\x7d' :: rest, depth + 1, isFirst⟩
      ⟨'\x7d' :: rest, depth + 1, false⟩ := by
  induction members generalizing isFirst with
  | nil => exact (Lexes.refl _).weaken
  | cons m members ih =>
    obtain ⟨hname, hnames⟩ := List.forall_mem_cons.1 names
    obtain ⟨hm, hmembers⟩ := List.forall_mem_cons.1 h
    have hvalue := hm depth false _ (stops_members members rest)
    have hkey := lexes_key hname (flow m.2 ++ (flowMembers false members ++ '\x7d' :: rest)) depth
    have hrest := hvalue.trans (ih hnames hmembers false)
    have hall := (lexes_gap isFirst _ _).trans (hkey.trans hrest)
    simpa [memberKinds, flowMembers] using hall

theorem lexes_array {items : List Json} (h : ∀ item ∈ items, LexesInside item) (rest : List Char)
    (depth : Nat) (ready : Bool) :
    Lexes (tokenKinds (.array items)) ⟨flow (.array items) ++ rest, depth, ready⟩
      ⟨rest, depth, false⟩ := by
  have hall := (lexes_open (.inl ⟨rfl, rfl⟩) _ depth ready).trans
    ((lexes_items h true rest depth).trans (lexes_close (.inl ⟨rfl, rfl⟩) rest depth false))
  simpa [tokenKinds, flow] using hall

theorem lexes_object {members : List (String × Json)} (names : ∀ m ∈ members, IsName m.1)
    (h : ∀ m ∈ members, LexesInside m.2) (rest : List Char) (depth : Nat) (ready : Bool) :
    Lexes (tokenKinds (.object members)) ⟨flow (.object members) ++ rest, depth, ready⟩
      ⟨rest, depth, false⟩ := by
  have hall := (lexes_open (.inr ⟨rfl, rfl⟩) _ depth ready).trans
    ((lexes_members names h true rest depth).trans
      (lexes_close (.inr ⟨rfl, rfl⟩) rest depth false))
  simpa [tokenKinds, flow] using hall

/-- **The text of a tree in brackets is read as the tokens of the tree.** -/
theorem lexes_flow {t : Json} (h : Flowing t) : LexesInside t := by
  induction h with
  | @string s chars =>
    intro depth ready rest hrest
    have hnames : ∀ c ∈ s.toList, isNameChar c = true := by
      intro c hc
      rw [isNameChar, chars c hc]
      rfl
    rw [tokenKinds, flow]
    by_cases hbare : isBare s = true
    · have hnonempty : s.toList ≠ [] := by
        rw [isBare, Bool.and_eq_true, Bool.not_eq_true', List.isEmpty_eq_false_iff] at hbare
        exact hbare.1
      rw [hbare, if_pos rfl]
      have hplain := lexes_plain hnonempty hnames hrest.endsPlain depth ready
      rwa [String.ofList_toList] at hplain
    · have hquoted := lexes_quoted hnames hrest.head?_ne (depth + 1) ready
      rw [String.ofList_toList] at hquoted
      rw [Bool.eq_false_of_not_eq_true hbare, if_neg Bool.false_ne_true]
      simpa using hquoted
  | array _ ih =>
    intro depth ready rest _
    exact lexes_array ih rest (depth + 1) ready
  | object names _ ih =>
    intro depth ready rest _
    exact lexes_object names ih rest (depth + 1) ready

/-! ### Whole texts -/

theorem takeWindow_append (room : Nat) (cs : List Char) :
    (takeWindow room cs).1 ++ (takeWindow room cs).2 = cs := by
  induction cs generalizing room with
  | nil => rfl
  | cons c cs ih =>
    rw [takeWindow]
    split_ifs
    · exact congrArg (c :: ·) (ih _)
    · rfl

theorem takeWindow_rest_lt {c : Char} {cs : List Char} :
    (takeWindow windowSize (c :: cs)).2.length < (c :: cs).length := by
  have hsize : c.utf8Size ≤ windowSize := le_trans c.utf8Size_le_four (by decide)
  have happend := congrArg List.length (takeWindow_append (windowSize - c.utf8Size) cs)
  rw [List.length_append] at happend
  rw [takeWindow, if_pos hsize, List.length_cons]
  show (takeWindow (windowSize - c.utf8Size) cs).2.length < cs.length + 1
  omega

/-- A text of characters that may stand in one can be read as a whole. -/
theorem readablePart_of_allowed {cs : List Char} (h : ∀ c ∈ cs, isAllowed c = true) {fuel : Nat}
    (hfuel : cs.length < fuel) : readablePart fuel cs = (cs, false) := by
  induction fuel generalizing cs with
  | zero => exact absurd hfuel (Nat.not_lt_zero _)
  | succ fuel ih =>
    have happend := takeWindow_append windowSize cs
    have hwindow : (takeWindow windowSize cs).1.all isAllowed = true := by
      rw [List.all_eq_true]
      exact fun c hc => h c (happend ▸ List.mem_append_left _ hc)
    rw [readablePart]
    show (if !(takeWindow windowSize cs).1.all isAllowed then _ else
      if (takeWindow windowSize cs).2.isEmpty then ((takeWindow windowSize cs).1, false) else
        ((takeWindow windowSize cs).1 ++ (readablePart fuel (takeWindow windowSize cs).2).1,
          (readablePart fuel (takeWindow windowSize cs).2).2)) = _
    rw [hwindow, Bool.not_true, if_neg Bool.false_ne_true]
    split_ifs with hrest
    · rw [List.isEmpty_iff] at hrest
      rw [hrest, List.append_nil] at happend
      rw [happend]
    · have hshorter : (takeWindow windowSize cs).2.length < cs.length := by
        cases cs with
        | nil => exact absurd rfl hrest
        | cons c cs => exact takeWindow_rest_lt
      rw [ih (fun c hc => h c (happend ▸ List.mem_append_right _ hc)) (by omega)]
      exact Prod.ext happend rfl

theorem reads_of_fetches {s s' e : TokenReader} (h : Relation.ReflTransGen Fetches s s')
    (he : Reads s' e) : Reads s e := by
  induction h using Relation.ReflTransGen.head_induction_on with
  | refl => exact he
  | head hstep _ ih => exact .more hstep.1 hstep.2 ih

/-- Behind the last bracket the text ends. -/
theorem fetch_end {s : TokenReader} (hs : s.Near ⟨[], 0, false⟩) :
    ∃ e m, s.fetch = some e ∧ e.queue = s.queue ++ [⟨.streamEnd, m⟩] ∧ e.candidate = none ∧
      e.outer = [] := by
  obtain ⟨t, htoken, ht, hqueue, -⟩ := hs.toToken (by simp)
  have hnext : t.takeNext = t.takeEnd := by rw [takeNext, ht.rest]
  obtain ⟨m, hm⟩ : ∃ m, m = (if t.input.mark.column = 0 then t.input.mark
    else ⟨t.input.mark.index, t.input.mark.line + 1, 0⟩ : Mark) := ⟨_, rfl⟩
  have hmoved : Calm { t with input := ⟨[], m⟩ } :=
    ⟨ht.calm.whole, ht.calm.noBlocks, ht.calm.optional⟩
  have hend : t.takeEnd = some ({ t with
      input := ⟨[], m⟩
      candidate := none
      keyAllowed := false }.push .streamEnd m) := by
    rw [takeEnd, ← hm, closeBlocks_of_noBlocks hmoved.noBlocks, hmoved.dropCandidate]
    rfl
  refine ⟨_, m, fetch_of_takeNext htoken ht.calm.whole (hnext.trans hend) ht.calm.whole, ?_, rfl,
    ?_⟩
  · rw [← hqueue]
    rfl
  · exact List.eq_nil_of_length_eq_zero ht.depth

/-- **The tokens of the text of an object.** -/
theorem tokens_flow {members : List (String × Json)} (h : Flowing (.object members)) :
    (Token.ofText (flow (.object members))).map Token.kind =
      tokenKinds (.object members) ++ [.streamEnd] := by
  obtain ⟨hnames, heach⟩ : (∀ m ∈ members, IsName m.1) ∧ ∀ m ∈ members, Flowing m.2 := by
    cases h
    exact ⟨‹_›, ‹_›⟩
  have hlexes := lexes_object hnames (fun m hm => lexes_flow (heach m hm)) [] 0 true
  have hallowed : ∀ c ∈ flow (.object members), isAllowed c = true := fun c hc =>
    (isAllowed_of_isFlowChar (isFlowChar_of_mem_flow h c hc)).1
  have hcalm : Near ⟨flow (.object members) ++ [], 0, true⟩
      { input := ⟨flow (.object members), {}⟩ } :=
    ⟨0, ⟨rfl, rfl, List.forall_mem_singleton.2 optional_none⟩, (List.append_nil _).symm, rfl,
      fun _ => rfl⟩
  obtain ⟨s, tokens, hchain, hqueue, hkinds, hs⟩ := hlexes.reach _ hcalm
  obtain ⟨e, m, hfetch, hend, hcandidate, houter⟩ := fetch_end hs
  have hreads := reads_of_fetches hchain (.last hfetch hcandidate houter)
  rw [hqueue, List.nil_append] at hend
  have hinner : ∀ t ∈ tokens, t.kind ≠ .streamEnd := by
    intro t ht
    exact hlexes.inner _ (hkinds ▸ List.mem_map_of_mem ht)
  -- every token takes a character, so there are not too many of them to be handed out
  have hcount : tokens.length < 4 * (flow (.object members)).length + 8 := by
    have hfewer : (tokenKinds (.object members)).length ≤ (flow (.object members) ++ []).length :=
      hlexes.fewer
    rw [← hkinds, List.length_map, List.append_nil] at hfewer
    omega
  have hbound : Bounded 0 { input := ⟨flow (.object members), {}⟩ } :=
    ⟨fun _ _ _ _ => Nat.zero_le _, Nat.zero_le _⟩
  rw [Token.ofText, readablePart_of_allowed hallowed (Nat.lt_succ_self _)]
  show (TokenReader.tokens _ { input := ⟨flow (.object members), {}⟩ }).map Token.kind = _
  rw [tokens_of_reads hreads hbound hend hinner hcount, hend, List.map_append, hkinds]
  rfl

end SszRecord.Yaml.TokenReader

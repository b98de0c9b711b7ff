/-
Reading what has been printed.

The trees of records hold strings, arrays and objects and nothing else, and an object has each of
its keys once: `Json.Textual`.  What is printed of such a tree is read back, whatever stands behind
it, as long as its levels may be opened.

* `readString_escaped` : strings, with the escapes of the printer;
* `readItems_tail`, `readMembers_tail` : the members of a bracket behind the first one;
* `readValue_write` : whole trees, by induction on the tree;
* `ofText_toText` : texts.

Strings and brackets show their own ends, so no lemma asks anything of the text behind.
-/
import Mathlib
import SszRecord.Json.Printer
import SszRecord.Json.Reader
import SszRecord.Proofs.Items

namespace SszRecord.Json

/-! ### Trees without numbers -/

mutual

/-- The number of arrays and objects on the deepest path into a tree. -/
def levels : Json → Nat
  | .array items => deepestItem items + 1
  | .object members => deepestMember members + 1
  | _ => 0

/-- The levels of the deepest of some items. -/
def deepestItem : List Json → Nat
  | [] => 0
  | item :: rest => max item.levels (deepestItem rest)

/-- The levels of the deepest of the values of some members. -/
def deepestMember : List (String × Json) → Nat
  | [] => 0
  | (_, value) :: rest => max value.levels (deepestMember rest)

end

theorem deepestItem_le {items : List Json} {n : Nat} :
    deepestItem items ≤ n ↔ ∀ item ∈ items, item.levels ≤ n := by
  induction items with
  | nil => exact ⟨fun _ => List.forall_mem_nil _, fun _ => Nat.zero_le n⟩
  | cons item rest ih => rw [deepestItem, max_le_iff, ih, List.forall_mem_cons]

theorem deepestMember_le {members : List (String × Json)} {n : Nat} :
    deepestMember members ≤ n ↔ ∀ m ∈ members, m.2.levels ≤ n := by
  induction members with
  | nil => exact ⟨fun _ => List.forall_mem_nil _, fun _ => Nat.zero_le n⟩
  | cons m rest ih => rw [deepestMember, max_le_iff, ih, List.forall_mem_cons]

/-- Trees of strings, arrays and objects with distinct keys. -/
inductive Textual : Json → Prop
  | string (s : String) : Textual (.string s)
  | array {items : List Json} (each : ∀ item ∈ items, Textual item) : Textual (.array items)
  | object {members : List (String × Json)} (distinct : (members.map Prod.fst).Nodup)
      (each : ∀ m ∈ members, Textual m.2) : Textual (.object members)

/-! ### Keys of objects -/

theorem setMember_of_notMem {key : String} {value : Json} {members : List (String × Json)}
    (h : key ∉ members.map Prod.fst) :
    setMember key value members = members ++ [(key, value)] := by
  induction members with
  | nil => rfl
  | cons m rest ih =>
    rw [List.map_cons, List.mem_cons, not_or] at h
    rw [setMember, if_neg (Ne.symm h.1), ih h.2, List.cons_append]

/-- Nothing is replaced among members with distinct keys. -/
theorem collect_of_nodup {members : List (String × Json)} (h : (members.map Prod.fst).Nodup) :
    collect members = members := by
  have hfold (done todo : List (String × Json)) (h : ((done ++ todo).map Prod.fst).Nodup) :
      todo.foldl (fun acc m => setMember m.1 m.2 acc) done = done ++ todo := by
    induction todo generalizing done with
    | nil => exact (List.append_nil done).symm
    | cons m todo ih =>
      have hkey : m.1 ∉ done.map Prod.fst := by
        rw [List.map_append, List.map_cons] at h
        exact fun hm => (List.nodup_append.1 h).2.2 _ hm _ List.mem_cons_self rfl
      rw [List.foldl_cons]
      rw [setMember_of_notMem hkey, ih (done ++ [m]), ← List.append_cons]
      rwa [← List.append_cons]
  exact hfold [] members h

theorem member?_of_mem {key : String} {value : Json} {members : List (String × Json)}
    (distinct : (members.map Prod.fst).Nodup) (h : (key, value) ∈ members) :
    member? key members = some value := by
  induction members with
  | nil => cases h
  | cons m rest ih =>
    rw [List.map_cons, List.nodup_cons] at distinct
    obtain rfl | h := List.mem_cons.1 h
    · rw [member?, if_pos rfl]
    · have hne : m.1 ≠ key := fun heq => distinct.1 (heq ▸ List.mem_map_of_mem h)
      rw [member?, if_neg hne, ih distinct.2 h]

/-! ### Strings -/

/-- The escape of a control character gives its code. -/
theorem hexNumber?_escape : ∀ n, n < 32 →
    Text.hexNumber? ['0', '0', hexDigit (n / 16), hexDigit (n % 16)] = some n := by decide

theorem readCodePoint_escape {c : Char} (h : c.toNat < 32) (cs : List Char) :
    readCodePoint ('0' :: '0' :: hexDigit (c.toNat / 16) :: hexDigit (c.toNat % 16) :: cs) =
      .ok (c, cs) := by
  have hdigits : readFourDigits ('0' :: '0' :: hexDigit (c.toNat / 16) ::
      hexDigit (c.toNat % 16) :: cs) = .ok (c.toNat, cs) := by
    rw [readFourDigits, hexNumber?_escape _ h]
  have hleading : ¬isLeadingSurrogate c.toNat = true := by
    simp only [isLeadingSurrogate, Bool.and_eq_true, decide_eq_true_eq]
    omega
  have htrailing : ¬isTrailingSurrogate c.toNat = true := by
    simp only [isTrailingSurrogate, Bool.and_eq_true, decide_eq_true_eq]
    omega
  rw [readCodePoint, hdigits]
  show (if isTrailingSurrogate c.toNat then _ else if isLeadingSurrogate c.toNat then _ else _) = _
  rw [if_neg htrailing, if_neg hleading, Char.ofNat_toNat]
  rfl

/-- An escaped character is read as the character itself. -/
theorem readChars_escapeChar (c : Char) (fuel : Nat) (cs : List Char) :
    readChars (fuel + 1) (escapeChar c ++ cs) = (do
      let (ds, rest) ← readChars fuel cs
      return (c :: ds, rest)) := by
  unfold escapeChar
  split_ifs with hquote hbackslash hn hr ht hb hf hcontrol
  · subst hquote; rfl
  · subst hbackslash; rfl
  · subst hn; rfl
  · subst hr; rfl
  · subst ht; rfl
  · subst hb; rfl
  · subst hf; rfl
  · show (readCodePoint ('0' :: '0' :: hexDigit (c.toNat / 16) ::
      hexDigit (c.toNat % 16) :: cs) >>= _) = _
    rw [readCodePoint_escape hcontrol]
    rfl
  · rw [List.singleton_append, readChars, if_neg hquote, if_neg hbackslash, if_neg hcontrol]

theorem escapeChar_ne_nil (c : Char) : escapeChar c ≠ [] := by
  unfold escapeChar
  split_ifs <;> exact List.cons_ne_nil _ _

theorem readChars_escaped {cs : List Char} {fuel : Nat} (h : cs.length < fuel)
    (rest : List Char) :
    readChars fuel (cs.flatMap escapeChar ++ '"' :: rest) = .ok (cs, rest) := by
  induction cs generalizing fuel with
  | nil =>
    obtain ⟨fuel, rfl⟩ := Nat.exists_eq_succ_of_ne_zero (Nat.ne_of_gt h)
    rfl
  | cons c cs ih =>
    obtain ⟨fuel, rfl⟩ := Nat.exists_eq_succ_of_ne_zero (Nat.ne_zero_of_lt h)
    rw [List.flatMap_cons, List.append_assoc, readChars_escapeChar, ih (Nat.lt_of_succ_lt_succ h)]
    rfl

/-- A list of nonempty pieces is no longer than their text. -/
theorem length_le_flatMap {α : Type} {f : α → List Char} (h : ∀ a, f a ≠ []) (as : List α) :
    as.length ≤ (as.flatMap f).length := by
  induction as with
  | nil => exact Nat.zero_le _
  | cons a as ih =>
    have ha := List.length_pos_of_ne_nil (h a)
    rw [List.flatMap_cons, List.length_append, List.length_cons]
    omega

/-- **What is printed of a string is read back.** -/
theorem readString_escaped (s : String) (rest : List Char) :
    readString (s.toList.flatMap escapeChar ++ '"' :: rest) = .ok (s, rest) := by
  have hfuel : s.toList.length < (s.toList.flatMap escapeChar ++ '"' :: rest).length := by
    have := length_le_flatMap escapeChar_ne_nil s.toList
    rw [List.length_append, List.length_cons]
    omega
  rw [readString, readChars_escaped hfuel]
  show Except.ok (String.ofList s.toList, rest) = _
  rw [String.ofList_toList]

/-! ### Blanks -/

theorem skipBlanks_lineBreak (layout : Layout) (depth : Nat) (cs : List Char) :
    skipBlanks (layout.lineBreak depth ++ cs) = skipBlanks cs := by
  cases layout with
  | compact => rfl
  | indented =>
    show skipBlanks (List.replicate (2 * depth) ' ' ++ cs) = skipBlanks cs
    induction 2 * depth with
    | zero => rfl
    | succ n ih => exact ih

theorem skipBlanks_colon (layout : Layout) (cs : List Char) :
    skipBlanks (layout.colon.tail ++ cs) = skipBlanks cs := by
  cases layout <;> rfl

theorem readValue_blanks {cs cs' : List Char} (h : skipBlanks cs = skipBlanks cs') (depth : Nat) :
    readValue depth cs = readValue depth cs' := by
  rw [readValue, h, ← readValue]

/-! ### Members of brackets -/

/-- Items with commas in front of them. -/
def itemsTail (layout : Layout) (depth : Nat) (items : List Json) : List Char :=
  items.flatMap fun item => ',' :: (layout.lineBreak depth ++ write layout depth item)

/-- A member behind the quote in front of its key. -/
def memberBody (layout : Layout) (depth : Nat) (m : String × Json) : List Char :=
  m.1.toList.flatMap escapeChar ++ '"' :: (layout.colon ++ write layout depth m.2)

/-- Members with commas in front of them. -/
def membersTail (layout : Layout) (depth : Nat) (members : List (String × Json)) : List Char :=
  members.flatMap fun m => ',' :: (layout.lineBreak depth ++ '"' :: memberBody layout depth m)

theorem itemsTail_append (layout : Layout) (depth : Nat) (item : Json) (rest : List Json)
    (cs : List Char) : itemsTail layout depth (item :: rest) ++ cs =
      ',' :: (layout.lineBreak depth ++ (write layout depth item ++
        (itemsTail layout depth rest ++ cs))) := by
  simp only [itemsTail, List.flatMap_cons, List.cons_append, List.append_assoc]

theorem writeItems_cons (layout : Layout) (depth : Nat) (item : Json) (rest : List Json) :
    writeItems layout depth (item :: rest) =
      layout.lineBreak depth ++ write layout depth item ++ itemsTail layout depth rest := by
  induction rest generalizing item with
  | nil => simp [writeItems, itemsTail]
  | cons next rest ih =>
    rw [writeItems, ih next]
    · simp [itemsTail]
    · exact List.cons_ne_nil _ _

theorem membersTail_append (layout : Layout) (depth : Nat) (m : String × Json)
    (rest : List (String × Json)) (cs : List Char) : membersTail layout depth (m :: rest) ++ cs =
      ',' :: (layout.lineBreak depth ++ '"' :: (memberBody layout depth m ++
        (membersTail layout depth rest ++ cs))) := by
  simp only [membersTail, List.flatMap_cons, List.cons_append, List.append_assoc]

theorem writeMembers_cons (layout : Layout) (depth : Nat) (m : String × Json)
    (rest : List (String × Json)) :
    writeMembers layout depth (m :: rest) =
      layout.lineBreak depth ++ '"' :: (memberBody layout depth m ++
        membersTail layout depth rest) := by
  induction rest generalizing m with
  | nil => simp [writeMembers, memberBody, quoted, membersTail]
  | cons next rest ih =>
    rw [writeMembers, ih next]
    · simp [membersTail, memberBody, quoted]
    · exact List.cons_ne_nil _ _

theorem length_le_itemsTail (layout : Layout) (depth : Nat) (items : List Json) :
    items.length ≤ (itemsTail layout depth items).length :=
  length_le_flatMap (fun _ => List.cons_ne_nil _ _) items

theorem length_le_membersTail (layout : Layout) (depth : Nat) (members : List (String × Json)) :
    members.length ≤ (membersTail layout depth members).length :=
  length_le_flatMap (fun _ => List.cons_ne_nil _ _) members

/-- What is printed of a tree begins with no blank and closes no bracket. -/
theorem skipBlanks_write {t : Json} (h : t.Textual) (layout : Layout) (depth : Nat)
    (rest : List Char) : ∃ c cs, write layout depth t ++ rest = c :: cs ∧
      skipBlanks (c :: cs) = c :: cs ∧ c ≠ ']' := by
  cases h with
  | string s => exact ⟨'"', _, rfl, rfl, by decide⟩
  | @array items =>
    cases items with
    | nil => exact ⟨'[', _, rfl, rfl, by decide⟩
    | cons => exact ⟨'[', _, rfl, rfl, by decide⟩
  | @object members =>
    cases members with
    | nil => exact ⟨'\x7b', _, rfl, rfl, by decide⟩
    | cons => exact ⟨'\x7b', _, rfl, rfl, by decide⟩

variable {read : List Char → Except Fault (Json × List Char)} {layout : Layout} {level : Nat}

theorem nextItem_close (isFirst : Bool) (rest : List Char) :
    nextItem isFirst (layout.lineBreak level ++ ']' :: rest) = .ok (.close rest) := by
  rw [nextItem, skipBlanks_lineBreak]
  rfl

theorem nextItem_first {t : Json} (h : t.Textual) (rest : List Char) :
    nextItem true (layout.lineBreak level ++ (write layout level t ++ rest)) =
      .ok (.more (write layout level t ++ rest)) := by
  obtain ⟨c, cs, hwrite, hskip, hc⟩ := skipBlanks_write h layout level rest
  rw [nextItem, skipBlanks_lineBreak, hwrite, hskip]
  split
  · cases ‹c :: cs = []›
  · exact absurd (List.cons.inj ‹c :: cs = _›).1 hc
  · rename_i hcons
    rw [if_pos rfl, ← hcons]

theorem nextItem_comma {t : Json} (h : t.Textual) (rest : List Char) :
    nextItem false (',' :: (layout.lineBreak level ++ (write layout level t ++ rest))) =
      .ok (.more (write layout level t ++ rest)) := by
  obtain ⟨c, cs, hwrite, hskip, hc⟩ := skipBlanks_write h layout level rest
  have hcomma (cs : List Char) : skipBlanks (',' :: cs) = ',' :: cs := rfl
  simp [nextItem, hcomma, skipBlanks_lineBreak, hwrite, hskip, hc]

/-- Where an item comes next, it is read, and then the items behind it. -/
theorem readItems_of_next {isFirst : Bool} {cs cs' rest rest' : List Char}
    (hnext : nextItem isFirst cs = .ok (.more cs')) {item : Json}
    (hread : read cs' = .ok (item, rest)) {fuel : Nat} {items : List Json}
    (hrest : readItems read fuel false rest = .ok (items, rest')) :
    readItems read (fuel + 1) isFirst cs = .ok (item :: items, rest') := by
  simp only [readItems, hnext, hread, hrest, ok_bind]
  rfl

theorem readItems_tail {items : List Json} (each : ∀ item ∈ items, item.Textual)
    (hread : ∀ item ∈ items, ∀ rest,
      read (write layout (level + 1) item ++ rest) = .ok (item, rest))
    {fuel : Nat} (h : items.length < fuel) (rest : List Char) :
    readItems read fuel false
      (itemsTail layout (level + 1) items ++ (layout.lineBreak level ++ ']' :: rest)) =
      .ok (items, rest) := by
  induction items generalizing fuel with
  | nil =>
    obtain ⟨fuel, rfl⟩ := Nat.exists_eq_succ_of_ne_zero (Nat.ne_zero_of_lt h)
    rw [readItems, itemsTail, List.flatMap_nil, List.nil_append, nextItem_close]
    rfl
  | cons item items ih =>
    obtain ⟨fuel, rfl⟩ := Nat.exists_eq_succ_of_ne_zero (Nat.ne_zero_of_lt h)
    obtain ⟨hitem, heach⟩ := List.forall_mem_cons.1 each
    obtain ⟨hreadItem, hread⟩ := List.forall_mem_cons.1 hread
    have hrest := ih heach hread (Nat.lt_of_succ_lt_succ h)
    rw [itemsTail_append]
    exact readItems_of_next (nextItem_comma hitem _) (hreadItem _) hrest

theorem readItems_first {item : Json} {items : List Json}
    (each : ∀ i ∈ item :: items, i.Textual)
    (hread : ∀ i ∈ item :: items, ∀ rest,
      read (write layout (level + 1) i ++ rest) = .ok (i, rest))
    {fuel : Nat} (h : items.length < fuel) (rest : List Char) :
    readItems read (fuel + 1) true
      (layout.lineBreak (level + 1) ++ (write layout (level + 1) item ++
        (itemsTail layout (level + 1) items ++ (layout.lineBreak level ++ ']' :: rest)))) =
      .ok (item :: items, rest) := by
  obtain ⟨hitem, heach⟩ := List.forall_mem_cons.1 each
  obtain ⟨hreadItem, hread⟩ := List.forall_mem_cons.1 hread
  have hrest := readItems_tail heach hread h rest
  exact readItems_of_next (nextItem_first hitem _) (hreadItem _) hrest

theorem nextKey_close (isFirst : Bool) (rest : List Char) :
    nextKey isFirst (layout.lineBreak level ++ '\x7d' :: rest) = .ok (.close rest) := by
  rw [nextKey, skipBlanks_lineBreak]
  rfl

theorem nextKey_first (cs : List Char) :
    nextKey true (layout.lineBreak level ++ '"' :: cs) = .ok (.more cs) := by
  rw [nextKey, skipBlanks_lineBreak]
  rfl

theorem nextKey_comma (cs : List Char) :
    nextKey false (',' :: (layout.lineBreak level ++ '"' :: cs)) = .ok (.more cs) := by
  have hcomma (cs : List Char) : skipBlanks (',' :: cs) = ',' :: cs := rfl
  have hquote : skipBlanks ('"' :: cs) = '"' :: cs := rfl
  simp [nextKey, hcomma, skipBlanks_lineBreak, hquote]

theorem readColon_colon (cs : List Char) :
    readColon (layout.colon ++ cs) = .ok (layout.colon.tail ++ cs) := by
  cases layout <;> rfl

/-- Behind the opening quote of a member, its key and its value are read, and then the members
behind it. -/
theorem readMember_body {m : String × Json} {cs : List Char}
    (hread : read (layout.colon.tail ++ (write layout level m.2 ++ cs)) = .ok (m.2, cs))
    {members : List (String × Json)} {rest : List Char} {fuel : Nat}
    (hrest : readMembers read fuel false cs = .ok (members, rest)) :
    (do
      let (key, rest) ← readString (memberBody layout level m ++ cs)
      let (value, rest) ← read (← readColon rest)
      let (members, rest) ← readMembers read fuel false rest
      return ((key, value) :: members, rest)) = .ok (m :: members, rest) := by
  rw [memberBody, List.append_assoc, List.cons_append, readString_escaped, List.append_assoc]
  show (do
    let (value, rest) ← read (← readColon (layout.colon ++ (write layout level m.2 ++ cs)))
    let (members, rest) ← readMembers read fuel false rest
    return ((m.1, value) :: members, rest)) = _
  rw [readColon_colon]
  show (do
    let (value, rest) ← read (layout.colon.tail ++ (write layout level m.2 ++ cs))
    let (members, rest) ← readMembers read fuel false rest
    return ((m.1, value) :: members, rest)) = _
  rw [hread]
  show (do
    let (members, rest) ← readMembers read fuel false cs
    return ((m.1, m.2) :: members, rest)) = _
  rw [hrest]
  rfl

theorem readMembers_tail {members : List (String × Json)}
    (hread : ∀ m ∈ members, ∀ rest,
      read (layout.colon.tail ++ (write layout (level + 1) m.2 ++ rest)) = .ok (m.2, rest))
    {fuel : Nat} (h : members.length < fuel) (rest : List Char) :
    readMembers read fuel false
      (membersTail layout (level + 1) members ++ (layout.lineBreak level ++ '\x7d' :: rest)) =
      .ok (members, rest) := by
  induction members generalizing fuel with
  | nil =>
    obtain ⟨fuel, rfl⟩ := Nat.exists_eq_succ_of_ne_zero (Nat.ne_zero_of_lt h)
    rw [readMembers, membersTail, List.flatMap_nil, List.nil_append, nextKey_close]
    rfl
  | cons m members ih =>
    obtain ⟨fuel, rfl⟩ := Nat.exists_eq_succ_of_ne_zero (Nat.ne_zero_of_lt h)
    obtain ⟨hm, hread⟩ := List.forall_mem_cons.1 hread
    have hrest := ih hread (Nat.lt_of_succ_lt_succ h)
    rw [membersTail_append, readMembers, nextKey_comma]
    exact readMember_body (hm _) hrest

theorem readMembers_first {m : String × Json} {members : List (String × Json)}
    (hread : ∀ m' ∈ m :: members, ∀ rest,
      read (layout.colon.tail ++ (write layout (level + 1) m'.2 ++ rest)) = .ok (m'.2, rest))
    {fuel : Nat} (h : members.length < fuel) (rest : List Char) :
    readMembers read (fuel + 1) true
      (layout.lineBreak (level + 1) ++ '"' :: (memberBody layout (level + 1) m ++
        (membersTail layout (level + 1) members ++ (layout.lineBreak level ++ '\x7d' :: rest)))) =
      .ok (m :: members, rest) := by
  obtain ⟨hm, hread⟩ := List.forall_mem_cons.1 hread
  rw [readMembers, nextKey_first]
  exact readMember_body (hm _) (readMembers_tail hread h rest)

/-! ### Trees -/

theorem readValue_string (depth : Nat) (cs : List Char) :
    readValue depth ('"' :: cs) = (do
      let (s, rest) ← readString cs
      return (.string s, rest)) := by
  rw [readValue]
  rfl

theorem readValue_array (depth : Nat) (cs : List Char) :
    readValue (depth + 1) ('[' :: cs) = (do
      let (items, rest) ← readItems (readValue depth) (cs.length + 1) true cs
      return (.array items, rest)) := by
  rw [readValue]
  rfl

theorem readValue_object (depth : Nat) (cs : List Char) :
    readValue (depth + 1) ('\x7b' :: cs) = (do
      let (members, rest) ← readMembers (readValue depth) (cs.length + 1) true cs
      return (.object (collect members), rest)) := by
  rw [readValue]
  rfl

theorem write_array_append (item : Json) (items : List Json) (rest : List Char) :
    write layout level (.array (item :: items)) ++ rest =
      '[' :: (layout.lineBreak (level + 1) ++ (write layout (level + 1) item ++
        (itemsTail layout (level + 1) items ++ (layout.lineBreak level ++ ']' :: rest)))) := by
  rw [write, writeItems_cons]
  · simp only [List.cons_append, List.append_assoc, List.nil_append]
  · exact List.cons_ne_nil _ _

theorem write_object_append (m : String × Json) (members : List (String × Json))
    (rest : List Char) :
    write layout level (.object (m :: members)) ++ rest =
      '\x7b' :: (layout.lineBreak (level + 1) ++ '"' :: (memberBody layout (level + 1) m ++
        (membersTail layout (level + 1) members ++
          (layout.lineBreak level ++ '\x7d' :: rest)))) := by
  rw [write, writeMembers_cons]
  · simp only [List.cons_append, List.append_assoc, List.nil_append]
  · exact List.cons_ne_nil _ _

/-- **What is printed of a tree is read back.** -/
theorem readValue_write {t : Json} (h : t.Textual) {depth : Nat} (levels : t.levels ≤ depth)
    (layout : Layout) (level : Nat) (rest : List Char) :
    readValue depth (write layout level t ++ rest) = .ok (t, rest) := by
  -- the levels that may be opened go down with the depth of the tree
  induction h generalizing depth level rest with
  | string s =>
    rw [write, quoted, List.append_assoc, List.cons_append, readValue_string,
      List.singleton_append, readString_escaped]
    rfl
  | @array items each ih =>
    rw [Json.levels] at levels
    obtain ⟨depth, rfl⟩ := Nat.exists_eq_succ_of_ne_zero (Nat.ne_zero_of_lt levels)
    have hlevels := deepestItem_le.1 (Nat.le_of_succ_le_succ levels)
    cases items with
    | nil =>
      rw [write]
      exact readValue_array depth (']' :: rest)
    | cons item items =>
      have hcount := length_le_itemsTail layout (level + 1) items
      rw [write_array_append, readValue_array, readItems_first each
        (fun i hi rest => ih i hi (hlevels i hi) (level + 1) rest)]
      · rfl
      · simp only [List.length_append, List.length_cons]
        omega
  | @object members distinct each ih =>
    rw [Json.levels] at levels
    obtain ⟨depth, rfl⟩ := Nat.exists_eq_succ_of_ne_zero (Nat.ne_zero_of_lt levels)
    have hlevels := deepestMember_le.1 (Nat.le_of_succ_le_succ levels)
    cases members with
    | nil =>
      rw [write]
      exact readValue_object depth ('\x7d' :: rest)
    | cons m members =>
      have hcount := length_le_membersTail layout (level + 1) members
      rw [write_object_append, readValue_object, readMembers_first fun m hm rest => ?_]
      · show Except.ok (Json.object (collect (m :: members)), rest) = _
        rw [collect_of_nodup distinct]
      · simp only [List.length_append, List.length_cons]
        omega
      · have hvalue := ih m hm (hlevels m hm) (level + 1) rest
        rw [readValue_blanks (skipBlanks_colon layout _), hvalue]

/-- The text of a tree gives the tree. -/
theorem ofText_toText {t : Json} (h : t.Textual) (levels : t.levels ≤ maxLevels)
    (layout : Layout) : ofText (t.toText layout) = .ok t := by
  have hread := readValue_write h levels layout 0 []
  rw [List.append_nil] at hread
  rw [ofText, toText, String.toList_ofList, readText, hread]
  rfl

end SszRecord.Json

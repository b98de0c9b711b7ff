/-
Trees as YAML texts.

The YAML text of a record is the text of its tree: digits stand as they are, all other strings are
quoted, and arrays and objects are sequences and mappings in brackets.  What such a text consists of
is said here three times, as the layers of reading see it: its characters (`flow`), the kinds of its
tokens (`tokenKinds`), and the signs of its nodes (`signs`), which stand for the events and for the
steps of a document alike.

`Flowing` are the trees whose text is this simple: strings of letters and digits, and keys that are
names.
-/
import Mathlib
import SszRecord.Proofs.Hex
import SszRecord.Proofs.Json.Reading
import SszRecord.Yaml.Document
import SszRecord.Yaml.Flow

namespace SszRecord.Yaml

/-- Whether a string is written without quotes. -/
def isBare (s : String) : Bool := !s.toList.isEmpty && s.toList.all Char.isDigit

/-- What stands between members. -/
def gapBefore {α : Type} (separator : List α) (isFirst : Bool) : List α :=
  if isFirst then [] else separator

mutual

/-- The text of a tree. -/
def flow : Json → List Char
  | .string s => if isBare s then s.toList else '\'' :: s.toList ++ ['\'']
  | .array items => '[' :: flowItems true items ++ [']']
  | .object members => '\x7b' :: flowMembers true members ++ ['\x7d']
  | _ => []

def flowItems (isFirst : Bool) : List Json → List Char
  | [] => []
  | item :: rest => gapBefore [',', ' '] isFirst ++ flow item ++ flowItems false rest

def flowMembers (isFirst : Bool) : List (String × Json) → List Char
  | [] => []
  | (key, value) :: rest =>
    gapBefore [',', ' '] isFirst ++ key.toList ++ ':' :: ' ' :: flow value ++ flowMembers false rest

end

mutual

/-- The kinds of the tokens of a tree. -/
def tokenKinds : Json → List Token.Kind
  | .string s => [.scalar s (isBare s)]
  | .array items => .sequenceOpen :: itemKinds true items ++ [.sequenceClose]
  | .object members => .mappingOpen :: memberKinds true members ++ [.mappingClose]
  | _ => []

def itemKinds (isFirst : Bool) : List Json → List Token.Kind
  | [] => []
  | item :: rest => gapBefore [.comma] isFirst ++ tokenKinds item ++ itemKinds false rest

def memberKinds (isFirst : Bool) : List (String × Json) → List Token.Kind
  | [] => []
  | (key, value) :: rest =>
    gapBefore [.comma] isFirst ++ .key :: .scalar key true :: .value :: tokenKinds value ++
      memberKinds false rest

end

/-- What is mapped to a list in brackets is in brackets itself. -/
theorem exists_of_map_bracket {α β : Type} {f : α → β} {as : List α} {b b' : β} {bs : List β}
    (h : as.map f = b :: bs ++ [b']) :
    ∃ a inner a', as = a :: (inner ++ [a']) ∧ f a = b ∧ inner.map f = bs ∧ f a' = b' := by
  rw [List.cons_append] at h
  obtain ⟨a, tail, rfl, ha, htail⟩ := List.map_eq_cons_iff.1 h
  obtain ⟨inner, last, rfl, hinner, hlast⟩ := List.map_eq_append_iff.1 htail
  obtain ⟨a', rfl, ha'⟩ := List.map_eq_singleton_iff.1 hlast
  exact ⟨a, inner, a', rfl, ha, hinner, ha'⟩

/-- A scalar, or the beginning or the end of a node that has members. -/
inductive Sign where
  | scalar (text : String) (isPlain : Bool)
  | sequenceStart
  | sequenceEnd
  | mappingStart
  | mappingEnd
deriving DecidableEq, Repr

/-- The event of a sign. -/
def Sign.event : Sign → Event.Kind
  | .scalar text isPlain => .scalar text isPlain {}
  | .sequenceStart => .sequenceStart {}
  | .sequenceEnd => .sequenceEnd
  | .mappingStart => .mappingStart {}
  | .mappingEnd => .mappingEnd

/-- The step of a sign. -/
def Sign.step : Sign → Step.Kind
  | .scalar text isPlain => .scalar text isPlain none
  | .sequenceStart => .sequenceStart none
  | .sequenceEnd => .sequenceEnd
  | .mappingStart => .mappingStart none
  | .mappingEnd => .mappingEnd

mutual

/-- The signs of a tree. -/
def signs : Json → List Sign
  | .string s => [.scalar s (isBare s)]
  | .array items => .sequenceStart :: itemSigns items ++ [.sequenceEnd]
  | .object members => .mappingStart :: memberSigns members ++ [.mappingEnd]
  | _ => []

def itemSigns : List Json → List Sign
  | [] => []
  | item :: rest => signs item ++ itemSigns rest

def memberSigns : List (String × Json) → List Sign
  | [] => []
  | (key, value) :: rest => .scalar key true :: signs value ++ memberSigns rest

end

/-! ### Names -/

/-- Letters, digits and underscores. -/
def isNameChar (c : Char) : Bool := c.isAlphanum || c = '_'

/-- Names of at most 128 characters. -/
structure IsName (key : String) : Prop where
  nonempty : key.toList ≠ []
  chars : ∀ c ∈ key.toList, isNameChar c = true
  length : key.toList.length ≤ 128

theorem ne_of_isNameChar {c : Char} (h : isNameChar c = true) {d : Char}
    (hd : isNameChar d = false) : c ≠ d := by
  rintro rfl
  exact Bool.false_ne_true (hd.symm.trans h)

theorem isSpace_eq_false {c : Char} (h : isNameChar c = true) : isSpace c = false := by
  have hne {d : Char} (hd : isNameChar d = false) : decide (c = d) = false :=
    decide_eq_false (ne_of_isNameChar h hd)
  rw [isSpace, isBlank, isBreak, hne (d := ' ') (by decide), hne (d := '\t') (by decide),
    hne (d := '\n') (by decide), hne (d := '\r') (by decide), hne (d := '\u0085') (by decide),
    hne (d := '\u2028') (by decide), hne (d := '\u2029') (by decide)]
  rfl

theorem isBracketChar_eq_false {c : Char} (h : isNameChar c = true) : isBracketChar c = false := by
  have hne {d : Char} (hd : isNameChar d = false) : decide (c = d) = false :=
    decide_eq_false (ne_of_isNameChar h hd)
  rw [isBracketChar, hne (d := ',') (by decide), hne (d := '[') (by decide),
    hne (d := ']') (by decide), hne (d := '\x7b') (by decide), hne (d := '\x7d') (by decide)]
  rfl

/-- Trees whose texts are words in brackets. -/
inductive Flowing : Json → Prop
  | string {s : String} (chars : ∀ c ∈ s.toList, c.isAlphanum = true) : Flowing (.string s)
  | array {items : List Json} (each : ∀ item ∈ items, Flowing item) : Flowing (.array items)
  | object {members : List (String × Json)} (names : ∀ m ∈ members, IsName m.1)
      (each : ∀ m ∈ members, Flowing m.2) : Flowing (.object members)

/-- A node begins with a scalar or an opening bracket. -/
theorem signs_eq_cons {t : Json} (h : Flowing t) :
    ∃ g gs, signs t = g :: gs ∧ g.step ≠ .sequenceEnd := by
  cases h with
  | string => exact ⟨_, _, rfl, by simp [Sign.step]⟩
  | array => exact ⟨_, _, rfl, by simp [Sign.step]⟩
  | object => exact ⟨_, _, rfl, by simp [Sign.step]⟩

/-! ### Characters -/

/-- The characters of flow texts. -/
def isFlowChar (c : Char) : Bool :=
  isNameChar c || ['\'', ',', ' ', ':', '[', ']', '\x7b', '\x7d'].contains c

theorem isAllowed_of_isFlowChar {c : Char} (h : isFlowChar c = true) :
    isAllowed c = true ∧ isBreak c = false := by
  have hcode : 32 ≤ c.toNat ∧ c.toNat ≤ 126 := by
    rw [isFlowChar, isNameChar, Bool.or_eq_true, Bool.or_eq_true, decide_eq_true_eq,
      List.contains_iff_mem] at h
    obtain (hc | rfl) | hc := h
    · have := toNat_of_isAlphanum hc
      omega
    · decide
    · simp only [List.mem_cons, List.not_mem_nil, or_false] at hc
      obtain rfl | rfl | rfl | rfl | rfl | rfl | rfl | rfl := hc <;> decide
  have hne {d : Char} (hd : d.toNat < 32 ∨ 126 < d.toNat) : decide (c = d) = false := by
    refine decide_eq_false ?_
    rintro rfl
    omega
  constructor
  · simp only [isAllowed, Bool.or_eq_true, Bool.and_eq_true, decide_eq_true_eq]
    omega
  · rw [isBreak, hne (d := '\n') (by decide), hne (d := '\r') (by decide),
      hne (d := '\u0085') (by decide), hne (d := '\u2028') (by decide),
      hne (d := '\u2029') (by decide)]
    rfl

theorem isFlowChar_of_mem_gap {isFirst : Bool} :
    ∀ c ∈ gapBefore [',', ' '] isFirst, isFlowChar c = true := by
  cases isFirst with
  | true => exact List.forall_mem_nil _
  | false => exact List.forall_mem_cons.2 ⟨rfl, List.forall_mem_singleton.2 rfl⟩

theorem isFlowChar_of_isNameChar {c : Char} (h : isNameChar c = true) : isFlowChar c = true := by
  rw [isFlowChar, h]
  rfl

theorem isFlowChar_of_mem_items {items : List Json}
    (h : ∀ item ∈ items, ∀ c ∈ flow item, isFlowChar c = true) (isFirst : Bool) :
    ∀ c ∈ flowItems isFirst items, isFlowChar c = true := by
  induction items generalizing isFirst with
  | nil => exact List.forall_mem_nil _
  | cons item items ih =>
    obtain ⟨hitem, hitems⟩ := List.forall_mem_cons.1 h
    rw [flowItems, List.forall_mem_append, List.forall_mem_append]
    exact ⟨⟨isFlowChar_of_mem_gap, hitem⟩, ih hitems false⟩

theorem isFlowChar_of_mem_members {members : List (String × Json)}
    (names : ∀ m ∈ members, IsName m.1)
    (h : ∀ m ∈ members, ∀ c ∈ flow m.2, isFlowChar c = true) (isFirst : Bool) :
    ∀ c ∈ flowMembers isFirst members, isFlowChar c = true := by
  induction members generalizing isFirst with
  | nil => exact List.forall_mem_nil _
  | cons m members ih =>
    obtain ⟨hname, hnames⟩ := List.forall_mem_cons.1 names
    obtain ⟨hm, hmembers⟩ := List.forall_mem_cons.1 h
    rw [flowMembers]
    simp only [List.forall_mem_append, List.forall_mem_cons]
    exact ⟨⟨⟨isFlowChar_of_mem_gap, fun c hc => isFlowChar_of_isNameChar (hname.chars c hc)⟩,
      rfl, rfl, hm⟩, ih hnames hmembers false⟩

theorem isFlowChar_of_mem_flow {t : Json} (h : Flowing t) : ∀ c ∈ flow t, isFlowChar c = true := by
  induction h with
  | @string s chars =>
    have hword : ∀ c ∈ s.toList, isFlowChar c = true := by
      intro c hc
      refine isFlowChar_of_isNameChar ?_
      rw [isNameChar, chars c hc]
      rfl
    rw [flow]
    split_ifs
    · exact hword
    · rw [List.forall_mem_append, List.forall_mem_cons]
      exact ⟨⟨rfl, hword⟩, List.forall_mem_singleton.2 rfl⟩
  | array _ ih =>
    rw [flow, List.forall_mem_append, List.forall_mem_cons]
    exact ⟨⟨rfl, isFlowChar_of_mem_items ih true⟩, List.forall_mem_singleton.2 rfl⟩
  | object names _ ih =>
    rw [flow, List.forall_mem_append, List.forall_mem_cons]
    exact ⟨⟨rfl, isFlowChar_of_mem_members names ih true⟩, List.forall_mem_singleton.2 rfl⟩

end SszRecord.Yaml

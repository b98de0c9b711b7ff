/-
What a refused tree is refused for.

Reading stops at the first position of a tree that has a fault, in the order of the schema, and its
error is that fault.  Each container that is entered on the way to the position, except the whole
record, puts a mark in front of the text.

* `Spot.tells_ofTree` : a value is read exactly if there is no fault in its node, and an error is the
  first fault;
* `Schema.ofTree_message` : the text of the error of a record.
-/
import Mathlib
import SszRecord.Proofs.Schema.Fits
import SszRecord.Proofs.Text.Positions

namespace SszRecord

namespace Spot

/-! ### What the children tell -/

/-- The faults of children, the first index choosing among them. -/
def faultIn? (spots : List Spot) : List Nat → Option String
  | [] => none
  | i :: path => spots[i]?.bind fun q => q.faultAt? path

/-- The containers that are entered behind the children. -/
def containersIn (spots : List Spot) : List Nat → List (Schema × Json)
  | [] => []
  | i :: path => spots[i]?.elim [] fun q => q.containers path

/-- Where nothing is wrong with a node itself, the faults are those of its children. -/
theorem faultAt?_eq {p : Spot} (h : p.fault? = none) : p.faultAt? = faultIn? p.children := by
  funext path
  cases path with
  | nil => exact h
  | cons i path =>
    rw [faultAt?, at?, Option.bind_assoc]
    rfl

theorem containers_eq (p : Spot) (path : List Nat) :
    p.containers path = p.entered ++ containersIn p.children path := by
  cases path with
  | nil => exact (List.append_nil _).symm
  | cons i path => rfl

end Spot

/-! ### The first fault -/

/-- A text behind marks of nested containers. -/
def marked (count : Nat) (text : String) : String :=
  String.join (List.replicate count "invalid JSON: ") ++ text

theorem marked_zero (text : String) : marked 0 text = text := String.empty_append

theorem marked_succ (count : Nat) (text : String) :
    marked (count + 1) text = "invalid JSON: " ++ marked count text := by
  rw [marked, marked, List.replicate_succ, String.join_cons, String.append_assoc]

/-- A fault that is met before all others. -/
structure IsFirst (faults : List Nat → Option String) (path : List Nat) (text : String) :
    Prop where
  here : faults path = some text
  before : ∀ path' < path, faults path' = none

theorem IsFirst.unique {faults : List Nat → Option String} {path path' : List Nat}
    {text text' : String} (h : IsFirst faults path text) (h' : IsFirst faults path' text') :
    path = path' ∧ text = text' := by
  obtain hlt | rfl | hlt := lt_trichotomy path path'
  · cases h.here.symm.trans (h'.before path hlt)
  · exact ⟨rfl, Option.some_inj.1 (h.here.symm.trans h'.here)⟩
  · cases h'.here.symm.trans (h.before path' hlt)

/-- The container is refused by itself, with this text. -/
def Refused (m : Schema × Json) (text : String) : Prop :=
  ∃ fault, m.1.readTree m.2 = .error fault ∧ fault.message = text

/-- A reading succeeds if there are no faults, and its error is the first fault, marked once for
every container on the way to it; the innermost of them is refused with the bare text. -/
structure Tells {α : Type} (faults : List Nat → Option String)
    (route : List Nat → List (Schema × Json)) (x : Except TextError α) : Prop where
  ok : ∀ a, x = .ok a → ∀ path, faults path = none
  error : ∀ e, x = .error e → ∃ path text, IsFirst faults path text ∧
    e.message = marked (route path).length text ∧ ∀ m ∈ (route path).getLast?, Refused m text

/-- What is made of an answer in the end does not matter. -/
theorem Tells.map {α β : Type} {faults : List Nat → Option String}
    {route : List Nat → List (Schema × Json)} {x : Except TextError α} (h : Tells faults route x)
    (f : α → β) : Tells faults route (x >>= fun a => .ok (f a)) := by
  constructor
  · intro b hb
    obtain ⟨a, ha, -⟩ := bind_eq_ok.1 hb
    exact h.ok a ha
  · intro e he
    obtain he | ⟨a, -, he⟩ := bind_eq_error.1 he
    · exact h.error e he
    · cases he

namespace Spot

variable {α β : Type}

theorem tells_nil (a : α) : Tells (faultIn? []) (containersIn []) (.ok a) := by
  constructor
  · intro _ _ path
    cases path <;> rfl
  · intro e h
    cases h

/-- What is read first has its faults before all others. -/
theorem tells_cons {γ : Type} {q : Spot} {spots : List Spot} {x : Except TextError α}
    {y : Except TextError β} (hx : Tells q.faultAt? q.containers x)
    (hy : Tells (faultIn? spots) (containersIn spots) y) (f : α → β → γ) :
    Tells (faultIn? (q :: spots)) (containersIn (q :: spots))
      (x >>= fun a => y >>= fun b => .ok (f a b)) := by
  constructor
  · intro c h path
    obtain ⟨a, ha, h⟩ := bind_eq_ok.1 h
    obtain ⟨b, hb, -⟩ := bind_eq_ok.1 h
    cases path with
    | nil => rfl
    | cons i path =>
      cases i with
      | zero => exact hx.ok a ha path
      | succ i => exact hy.ok b hb (i :: path)
  · intro e h
    obtain h | ⟨a, ha, h⟩ := bind_eq_error.1 h
    · -- nothing comes before the first child, so its first fault is the first one here
      obtain ⟨path, text, ⟨here, before⟩, hmessage, hlast⟩ := hx.error e h
      refine ⟨0 :: path, text, ⟨here, fun path' hlt => ?_⟩, hmessage, hlast⟩
      cases path' with
      | nil => rfl
      | cons i path' =>
        obtain hi | ⟨hi, hrest⟩ := List.cons_lt_cons_iff.1 hlt
        · exact absurd hi (Nat.not_lt_zero i)
        · rw [hi]
          exact before path' hrest
    · -- the first child has been read, so the positions in it are free of faults
      obtain h | ⟨b, -, h⟩ := bind_eq_error.1 h
      · obtain ⟨path, text, ⟨here, before⟩, hmessage, hlast⟩ := hy.error e h
        cases path with
        | nil => cases here
        | cons i path =>
          refine ⟨(i + 1) :: path, text, ⟨here, fun path' hlt => ?_⟩, hmessage, hlast⟩
          cases path' with
          | nil => rfl
          | cons j path' =>
            cases j with
            | zero => exact hx.ok a ha path'
            | succ j =>
              refine before (j :: path') ?_
              rw [List.cons_lt_cons_iff, Nat.succ_lt_succ_iff, Nat.succ_inj] at hlt
              exact List.cons_lt_cons_iff.2 hlt
      · cases h

/-- A fault of a value that is no container is met before those inside of it. -/
theorem tells_of_fault {p : Spot} {text : String} (h : p.fault? = some text)
    (hentered : p.entered = []) {e : TextError} (hmessage : e.message = text) :
    Tells p.faultAt? p.containers (.error e : Except TextError α) := by
  constructor
  · intro a ha
    cases ha
  · intro e' he
    cases he
    refine ⟨[], text, ⟨h, fun path' hlt => absurd hlt (List.not_lt_nil path')⟩, ?_, ?_⟩
    · rw [containers, hentered, hmessage]
      exact (marked_zero text).symm
    · rw [containers, hentered]
      intro m hm
      cases hm

/-- Where nothing is wrong with a value itself, its items tell. -/
theorem tells_of_children {p : Spot} (h : p.fault? = none) (hentered : p.entered = [])
    {x : Except TextError α} (hx : Tells (faultIn? p.children) (containersIn p.children) x) :
    Tells p.faultAt? p.containers x := by
  have hroute : p.containers = containersIn p.children := by
    funext path
    rw [containers_eq, hentered, List.nil_append]
  rwa [faultAt?_eq h, hroute]

/-- What a reading tells of a record, whose own container puts no mark in front. -/
structure TellsRecord (s : Schema) (node : Json) : Prop where
  ok : ∀ r, s.readTree node = .ok r → ∀ path, (container s node).faultAt? path = none
  error : ∀ e, s.readTree node = .error e → ∃ path text outer m,
    IsFirst (container s node).faultAt? path text ∧
      (container s node).containers path = outer ++ [m] ∧
        e.message = marked outer.length text ∧ Refused m text

/-- A container that is no object is refused for that alone. -/
theorem tellsRecord_of_fault {s : Schema} {node : Json} {text : String}
    (h : (container s node).fault? = some text) : TellsRecord s node := by
  obtain ⟨fault, hread, hmessage⟩ : Refused (s, node) text := by
    cases node <;> cases h <;> exact ⟨_, rfl, rfl⟩
  constructor
  · intro r hr
    cases hread.symm.trans hr
  · intro e he
    cases hread.symm.trans he
    refine ⟨[], text, [], (s, node), ⟨h, fun path' hlt => absurd hlt (List.not_lt_nil path')⟩, rfl,
      ?_, fault, hread, hmessage⟩
    rw [hmessage]
    exact (marked_zero text).symm

/-- An object tells what its fields tell. -/
theorem tellsRecord_of_fields {s : Schema} {members : List (String × Json)}
    (h : Tells (faultIn? (children (.container s (.object members))))
      (containersIn (children (.container s (.object members))))
      (Kind.ofMembers s.name s.fields members)) : TellsRecord s (.object members) := by
  have hfault : (container s (.object members)).faultAt? =
      faultIn? (children (.container s (.object members))) := faultAt?_eq rfl
  constructor
  · intro r hr
    rw [hfault]
    exact h.ok r hr
  · intro e he
    obtain ⟨path, text, hfirst, hmessage, hlast⟩ := h.error e he
    rw [← hfault] at hfirst
    have hroute := containers_eq (.container s (.object members)) path
    generalize containersIn (children (.container s (.object members))) path = inner
      at hroute hmessage hlast
    obtain rfl | ⟨front, m, rfl⟩ := List.eq_nil_or_concat inner
    · -- no other container is entered on the way
      refine ⟨path, text, [], (s, .object members), hfirst, hroute, hmessage, e, he, ?_⟩
      rw [hmessage]
      exact marked_zero text
    · rw [List.concat_eq_append] at hroute hmessage hlast
      refine ⟨path, text, (s, .object members) :: front, m, hfirst, hroute, ?_,
        hlast m List.getLast?_concat⟩
      rw [hmessage, List.length_append, List.length_cons, List.length_cons, List.length_nil]

/-- A container inside of another one puts its mark in front. -/
theorem tells_of_record {s : Schema} {node : Json} (h : TellsRecord s node) (place : Place) :
    Tells (container s node).faultAt? (container s node).containers
      (s.kind.ofTree place node) := by
  have hread : s.kind.ofTree place node =
      ((s.readTree node).map Value.container).mapError TextError.nested := by
    cases node with
    | object members =>
      rw [Schema.kind, Kind.ofTree, Schema.readTree]
      cases Kind.ofMembers s.name s.fields members <;> rfl
    | _ => rfl
  rw [hread]
  constructor
  · intro v hv
    cases hr : s.readTree node with
    | ok r => exact h.ok r hr
    | error e =>
      rw [hr] at hv
      cases hv
  · intro e he
    cases hr : s.readTree node with
    | ok r =>
      rw [hr] at he
      cases he
    | error inner =>
      rw [hr] at he
      cases he
      obtain ⟨path, text, outer, m, hfirst, hroute, hmessage, hrefused⟩ := h.error inner hr
      refine ⟨path, text, hfirst, ?_, ?_⟩
      · rw [hroute, List.length_append, List.length_singleton, marked_succ, ← hmessage]
        rfl
      · rw [hroute, List.getLast?_concat]
        intro m' hm'
        cases hm'
        exact hrefused

/-! ### Values -/

/-- An answer and the fault that belongs to it. -/
inductive Judges {α : Type} : Except TextError α → Option String → Prop
  | accepts (a : α) : Judges (.ok a) none
  | refuses (e : TextError) : Judges (.error e) (some e.message)

theorem tells_of_judges {p : Spot} {x : Except TextError α} (h : Judges x p.fault?)
    (hentered : p.entered = []) (hchildren : p.children = []) :
    Tells p.faultAt? p.containers x := by
  generalize hfault : p.fault? = fault at h
  cases h with
  | accepts a =>
    have hnil : Tells (faultIn? p.children) (containersIn p.children)
        (.ok a : Except TextError α) := by
      rw [hchildren]
      exact tells_nil a
    exact tells_of_children hfault hentered hnil
  | refuses e => exact tells_of_fault hfault hentered rfl

section Values

variable (place : Place)

theorem judges_bytes (fits : Bytes → Bool) (text : String) :
    Judges (do
      let b ← (Json.string text).bytesAt place
      checkLength place (fits b)
      return Value.bytes b) (bytesFault? place fits text) := by
  rw [Json.bytesAt, Json.textAt, ok_bind, bytesFault?]
  cases Hex.ofText text with
  | error fault => exact .refuses (.invalidValue place (.hex fault))
  | ok b =>
    show Judges (checkLength place (fits b) >>= fun _ => .ok (Value.bytes b))
      (lengthFault? place (fits b))
    cases fits b with
    | false => exact .refuses (.incorrectLength place)
    | true => exact .accepts _

theorem judges_uint (w : Nat) (text : String) :
    Judges (do return Value.uint (← (Json.string text).uintAt place w))
      (uintFault? place w text) := by
  rw [Json.uintAt, Json.textAt, ok_bind, uintFault?]
  cases UInt256.ofDecimalWidth w text with
  | error fault => exact .refuses (.invalidValue place (.decimal fault))
  | ok u => exact .accepts _

/-- The length of a sequence is checked before its items are read. -/
theorem tells_sequence {p : Spot} {fits : Bool} (hfault : p.fault? = lengthFault? place fits)
    (hentered : p.entered = []) {read : Except TextError (List Value)}
    (hread : Tells (faultIn? p.children) (containersIn p.children) read)
    (f : List Value → Value) :
    Tells p.faultAt? p.containers
      (checkLength place fits >>= fun _ => read >>= fun values => .ok (f values)) := by
  cases fits with
  | false => exact tells_of_fault hfault hentered rfl
  | true => exact (tells_of_children hfault hentered hread).map f

end Values

/-- What the readings of a kind tell, of any node at any place. -/
def TellsKind (k : Kind) : Prop :=
  ∀ place node, Tells (ofNode place k node).faultAt? (ofNode place k node).containers
    (k.ofTree place node)

theorem tells_items {item : Kind} {place : Place} (h : TellsKind item) (nodes : List Json)
    (i : Nat) :
    Tells (faultIn? ((nodes.zipIdx i).map fun m => ofNode (place.item m.2) item m.1))
      (containersIn ((nodes.zipIdx i).map fun m => ofNode (place.item m.2) item m.1))
      (readNodes (fun i node => item.ofTree (place.item i) node) i nodes) := by
  induction nodes generalizing i with
  | nil => exact tells_nil []
  | cons node nodes ih =>
    rw [List.zipIdx_cons, List.map_cons]
    exact tells_cons (h (place.item i) node) (ih (i + 1)) List.cons

theorem tells_field (owner : String) (members : List (String × Json)) {f : Field Kind}
    (h : TellsKind f.kind) :
    Tells (ofField owner members f).faultAt? (ofField owner members f).containers
      (Kind.nodeOfField ⟨owner, f.key, []⟩ f.kind f.absent (Json.member? f.key members) >>=
        fun node => f.kind.ofTree ⟨owner, f.key, []⟩ node) := by
  have absent : Tells (Spot.absent ⟨owner, f.key, []⟩).faultAt?
      (Spot.absent ⟨owner, f.key, []⟩).containers
      (.error (.missing ⟨owner, f.key, []⟩) : Except TextError Value) :=
    tells_of_fault rfl rfl rfl
  unfold ofField
  cases hpresent : Json.present? f.key members with
  | some node =>
    rw [Kind.nodeOfField_of_some _ _ _ hpresent]
    exact h _ node
  | none =>
    rw [Kind.nodeOfField_of_none _ _ _ hpresent]
    unfold Kind.nodeOfField
    cases f.absent with
    | reject => exact absent
    | empty =>
      cases f.kind.emptyNode? with
      | none => exact absent
      | some node => exact h _ node

theorem tells_fields {owner : String} {members : List (String × Json)} {fields : List (Field Kind)}
    (h : ∀ f ∈ fields, TellsKind f.kind) :
    Tells (faultIn? (fields.map (ofField owner members)))
      (containersIn (fields.map (ofField owner members)))
      (Kind.ofMembers owner fields members) := by
  induction fields with
  | nil => exact tells_nil []
  | cons f fields ih =>
    obtain ⟨hf, hfields⟩ := List.forall_mem_cons.1 h
    have hcons := tells_cons (tells_field owner members hf) (ih hfields) List.cons
    rwa [bind_assoc] at hcons

/-- **A value is read if there is no fault in its node, and refused for the first one.** -/
theorem tells_ofTree (k : Kind) : TellsKind k := by
  -- The place is not fixed in the induction: it has another index for every item.
  induction k with
  | bytes n =>
    intro place node
    refine tells_of_judges ?_ rfl rfl
    cases node with
    | string text => exact judges_bytes place (fun b => b.length = n) text
    | _ => exact .refuses (.shape (.notField _ place "string"))
  | byteList max =>
    intro place node
    refine tells_of_judges ?_ rfl rfl
    cases node with
    | string text => exact judges_bytes place (fun b => b.length ≤ max) text
    | _ => exact .refuses (.shape (.notField _ place "string"))
  | uint w =>
    intro place node
    refine tells_of_judges ?_ rfl rfl
    cases node with
    | string text => exact judges_uint place w text
    | _ => exact .refuses (.shape (.notField _ place "string"))
  | vector item n ih =>
    intro place node
    cases node with
    | array nodes =>
      exact tells_sequence (p := value place (.vector item n) (.array nodes)) place rfl rfl
        (tells_items ih nodes 0) Value.vector
    | _ => exact tells_of_fault rfl rfl rfl
  | list item max ih =>
    intro place node
    cases node with
    | array nodes =>
      exact tells_sequence (p := value place (.list item max) (.array nodes)) place rfl rfl
        (tells_items ih nodes 0) Value.list
    | _ => exact tells_of_fault rfl rfl rfl
  | container name fields ih =>
    intro place node
    refine tells_of_record (s := ⟨name, fields⟩) ?_ place
    cases node with
    | object members => exact tellsRecord_of_fields (tells_fields ih)
    | _ => exact tellsRecord_of_fault rfl

/-- The same for a record. -/
theorem tellsRecord (s : Schema) (tree : Json) : TellsRecord s tree := by
  cases tree with
  | object members =>
    exact tellsRecord_of_fields (tells_fields fun f _ => tells_ofTree f.kind)
  | _ => exact tellsRecord_of_fault rfl

end Spot

namespace Schema

theorem message_eq {s : Schema} {tree : Json} {text : String} :
    (s.ofTree tree).mapError CodecError.message = .error text ↔ Refused (s, tree) text := by
  rw [ofTree, Refused]
  cases s.readTree tree with
  | ok r =>
    constructor
    · intro h
      cases h
    · rintro ⟨fault, h, -⟩
      cases h
  | error e =>
    constructor
    · intro h
      cases h
      exact ⟨e, rfl, rfl⟩
    · rintro ⟨fault, h, rfl⟩
      cases h
      rfl

/-- **What a refused tree is refused for.**  The error of a reading is about the first position that
has a fault.  The container that is entered last on the way to it fails by itself with the bare text,
which tells of a wrong shape, or names a field of that container and an index for every sequence on
the way from there; and a mark stands in front of it for every container that is entered on the way,
the whole record left out. -/
theorem ofTree_message (s : Schema) (tree : Json) (text : String) :
    (s.ofTree tree).mapError CodecError.message = .error text ↔
      ∃ before rest base outer c node,
        IsFirst (Spot.container s tree).faultAt? (before ++ rest) base ∧
          (Spot.container s tree).at? before = some (.container c node) ∧
          (Spot.container s tree).containers before = outer ++ [(c, node)] ∧
          (Spot.container s tree).containers (before ++ rest) = outer ++ [(c, node)] ∧
            Spot.Says c rest base ∧ (c.ofTree node).mapError CodecError.message = .error base ∧
              text = marked outer.length base := by
  have htells := Spot.tellsRecord s tree
  rw [message_eq]
  constructor
  · rintro ⟨e, he, rfl⟩
    obtain ⟨path, base, outer, m, hfirst, hroute, hmessage, hrefused⟩ := htells.error e he
    obtain ⟨q, hq, hfault⟩ := Option.bind_eq_some_iff.1 hfirst.here
    obtain ⟨before, rest, outer', c, node, rfl, hbefore, houter, hinner, hstands⟩ :=
      Spot.exists_innermost hq
    -- both describe the same route, whose last container is the innermost one
    obtain ⟨rfl, hm⟩ := List.append_inj' (hroute.symm.trans hinner) rfl
    rw [List.singleton_inj] at hm
    subst hm
    exact ⟨before, rest, base, outer, c, node, hfirst, hbefore, houter, hinner,
      Spot.says_of_fault? hstands hfault, message_eq.2 hrefused, hmessage⟩
  · rintro ⟨before, rest, base, outer, c, node, hfirst, -, -, hinner, -, -, rfl⟩
    cases he : s.readTree tree with
    | ok r => cases (htells.ok r he _).symm.trans hfirst.here
    | error e =>
      obtain ⟨path, base', outer', m, hfirst', hroute, hmessage, -⟩ := htells.error e he
      -- there is one first fault, and its route has one length
      obtain ⟨rfl, rfl⟩ := hfirst.unique hfirst'
      obtain ⟨rfl, -⟩ := List.append_inj' (hinner.symm.trans hroute) rfl
      exact ⟨e, he, hmessage⟩

/-- The second item of the second part is no number. -/
example :
    let part : Kind := .container "Part" [⟨"gas_used", .list (.uint 1) 2, .reject⟩]
    let s : Schema := ⟨"Whole", [⟨"parts", .list part 4, .reject⟩]⟩
    let tree : Json := .object [("parts", .array [.object [("gas_used", .array [])],
      .object [("gas_used", .array [.string "7", .string "x"])]])]
    let e : CodecError :=
      .text (.nested (.invalidValue ⟨"Part", "gas_used", [1]⟩ (.decimal .badDigit)))
    s.ofTree tree = .error e ∧
      e.message = "invalid JSON: invalid value for gas used[1]: invalid digit found in string" :=
  ⟨rfl, by decide +kernel⟩

end Schema

end SszRecord

/-
The pairs that are hashed on the way to a root.

Roots are computed in the same way over whatever trees are built from: a map that keeps leaves,
joints and zero trees takes roots to roots (`Kind.root_map`, `Schema.rootOver_map`).  Over
`Nodes.traced h` every node carries the pairs that were hashed below it, so the traced root of a
record has the digest of its root and lists what was hashed for it.  The zero ladder is not part of
the list.
-/
import Mathlib
import SszRecord.Proofs.Merkle.Roots
import SszRecord.Proofs.Schema.Fits

namespace SszRecord

variable {α β : Type}

theorem map_demand {p : Prop} [Decidable p] {e : CodecError} {x : Except CodecError α}
    (f : α → β) : f <$> (if p then x else .error e) = if p then f <$> x else .error e :=
  apply_ite (f <$> ·) p x (.error e)

theorem map_refuse {p : Prop} [Decidable p] {e : CodecError} {x : Except CodecError α}
    (f : α → β) : f <$> (if p then .error e else x) = if p then .error e else f <$> x :=
  apply_ite (f <$> ·) p (.error e) x

theorem map_mapItems {γ : Type} (g : α → Except CodecError β) (f : β → γ) (items : List α) :
    List.map f <$> mapItems g items = mapItems (fun a => f <$> g a) items := by
  induction items with
  | nil => rfl
  | cons a items ih =>
    rw [mapItems, mapItems, ← ih]
    simp only [map_bind, bind_map_left, map_pure, List.map_cons]

namespace Nodes

/-- A map that keeps what trees are built from. -/
structure Hom (nodes : Nodes α) (nodes' : Nodes β) (f : α → β) : Prop where
  leaf : ∀ d, f (nodes.leaf d) = nodes'.leaf d
  join : ∀ a b, f (nodes.join a b) = nodes'.join (f a) (f b)
  zero : ∀ depth, f (nodes.zero depth) = nodes'.zero depth

variable {nodes : Nodes α} {nodes' : Nodes β} {f : α → β}

theorem pairUp_map (hf : Hom nodes nodes' f) (height : Nat) (level : List α) :
    nodes'.pairUp height (level.map f) = (nodes.pairUp height level).map f := by
  induction level using pairUp.induct with
  | case1 a b rest ih =>
    rw [List.map_cons, List.map_cons, pairUp, pairUp, ih, List.map_cons, hf.join]
  | case2 a => rw [List.map_singleton, pairUp, pairUp, List.map_singleton, hf.join, hf.zero]
  | case3 => rfl

theorem climb_map (hf : Hom nodes nodes' f) (height depth : Nat) (level : List α) :
    nodes'.climb height depth (level.map f) = f (nodes.climb height depth level) := by
  induction depth generalizing height level with
  | zero =>
    cases level with
    | nil => exact (hf.zero height).symm
    | cons a level => rfl
  | succ depth ih => rw [climb, climb, pairUp_map hf, ih]

theorem merkleize_map (hf : Hom nodes nodes' f) (level : List α) (limit : Nat) :
    nodes'.merkleize (level.map f) limit = f <$> nodes.merkleize level limit := by
  rw [merkleize, merkleize, List.length_map, climb_map hf, map_refuse]
  rfl

theorem merkleizeBytes_map (hf : Hom nodes nodes' f) (b : Bytes) (max : Nat) :
    nodes'.merkleizeBytes b max = f <$> nodes.merkleizeBytes b max := by
  rw [merkleizeBytes, merkleizeBytes, ← merkleize_map hf, List.map_map]
  congr 2
  exact funext fun d => (hf.leaf d).symm

theorem mixInLength_map (hf : Hom nodes nodes' f) (root : α) (length : Nat) :
    nodes'.mixInLength (f root) length = f (nodes.mixInLength root length) := by
  rw [mixInLength, mixInLength, hf.join, hf.leaf]

end Nodes

namespace Kind

variable {nodes : Nodes α} {nodes' : Nodes β} {f : α → β} {m : Nat}

theorem itemsRoot_map (hf : nodes.Hom nodes' f) {item : Kind}
    {rootOf : Value → Except CodecError α} {rootOf' : Value → Except CodecError β}
    (h : ∀ v, rootOf' v = f <$> rootOf v) (bound : Nat) (items : List Value) :
    itemsRoot nodes' item rootOf' bound items = f <$> itemsRoot nodes item rootOf bound items := by
  obtain ⟨w, rfl⟩ | hitem := item.uint_or_composite
  · simp only [itemsRoot, map_bind, Nodes.merkleizeBytes_map hf]
  · rw [itemsRoot_of_composite hitem, itemsRoot_of_composite hitem, funext h, ← map_mapItems]
    simp only [map_bind, bind_map_left, Nodes.merkleize_map hf]

theorem fieldRoots_map {fields : List (Field Kind)}
    (ih : ∀ g ∈ fields, ∀ depth v, g.kind.root nodes' m depth v = f <$> g.kind.root nodes m depth v)
    (depth : Nat) (values : List Value) :
    fieldRoots nodes' m fields depth values =
      List.map f <$> fieldRoots nodes m fields depth values := by
  rw [fieldRoots_eq, fieldRoots_eq, map_mapItems]
  exact mapItems_congr fun p hp => ih p.1 (List.of_mem_zip hp).1 depth p.2

/-- Roots are taken to roots. -/
theorem root_map (hf : nodes.Hom nodes' f) (k : Kind) (depth : Nat) (v : Value) :
    k.root nodes' m depth v = f <$> k.root nodes m depth v := by
  induction k generalizing depth v with
  | bytes n =>
    cases v with
    | bytes b => rw [root, root, map_demand, Nodes.merkleizeBytes_map hf]
    | _ => rfl
  | uint w =>
    cases v with
    | uint u =>
      rw [root, root, map_demand, ← hf.leaf]
      rfl
    | _ => rfl
  | byteList max =>
    cases v with
    | bytes b =>
      simp only [root, map_demand, map_bind, map_pure, Nodes.merkleizeBytes_map hf,
        bind_map_left, Nodes.mixInLength_map hf]
    | _ => rfl
  | vector item n ih =>
    cases v with
    | vector items =>
      simp only [root, map_demand, map_bind, itemsRoot_map hf (ih (depth + 1))]
    | _ => rfl
  | list item max ih =>
    cases v with
    | list items =>
      simp only [root, map_demand, map_bind, map_pure, itemsRoot_map hf (ih (depth + 1)),
        bind_map_left, Nodes.mixInLength_map hf]
    | _ => rfl
  | container name fields ih =>
    cases v with
    | container values =>
      simp only [root, map_demand, map_bind, fieldRoots_map ih, bind_map_left,
        Nodes.merkleize_map hf, List.length_map]
    | _ => rfl

end Kind

theorem Schema.rootOver_map {nodes : Nodes α} {nodes' : Nodes β} {f : α → β}
    (hf : nodes.Hom nodes' f) (s : Schema) (m : Nat) (r : Record) :
    s.rootOver nodes' m r = f <$> s.rootOver nodes m r := by
  simp only [rootOver, throw_eq_error, map_demand, map_bind, bind_map_left,
    Kind.fieldRoots_map fun g _ => Kind.root_map hf g.kind, Nodes.merkleize_map hf,
    List.length_map]

/-! ### Traced nodes -/

/-- A digest and the pairs that were hashed for it. -/
structure Traced where
  digest : Digest
  joins : List (Digest × Digest)

namespace Nodes

variable (h : Digest → Digest → Digest)

/-- Digests joined by a hash function, every node with the pairs that were hashed below it. -/
def traced : Nodes Traced where
  leaf d := ⟨d, []⟩
  join a b := ⟨h a.digest b.digest, (a.digest, b.digest) :: (a.joins ++ b.joins)⟩
  zero depth := ⟨zeroRoot h depth, []⟩

theorem traced_hom : Hom (traced h) (ofHash h) Traced.digest :=
  ⟨fun _ => rfl, fun _ _ => rfl, fun _ => rfl⟩

end Nodes

namespace Schema

variable {h : Digest → Digest → Digest} {s : Schema} {m : Nat} {r : Record}

/-- The pairs that are hashed for the root of a record. -/
def joins (h : Digest → Digest → Digest) (s : Schema) (m : Nat) (r : Record) :
    List (Digest × Digest) :=
  match s.rootOver (.traced h) m r with
  | .ok t => t.joins
  | .error _ => []

/-- What is traced is the computation of the root. -/
theorem rootOver_ofHash_eq_ok {d : Digest} :
    s.rootOver (.ofHash h) m r = .ok d ↔
      ∃ t, s.rootOver (.traced h) m r = .ok t ∧ t.digest = d ∧ t.joins = s.joins h m r := by
  rw [rootOver_map (Nodes.traced_hom h), joins]
  cases s.rootOver (.traced h) m r with
  | ok t => simp
  | error e => simp

end Schema

end SszRecord

/-
What hash trees are made of.

The leaves of a hash tree are digests and its nodes join two subtrees.  Everything that computes
a tree does so over `Nodes`, which says what a leaf, a joint and a tree of zero leaves are; with
digests joined by a hash function it computes roots.

* `ladder_getElem?`: the rungs of the zero ladder are the roots of the trees of zero leaves;
* `tabulated_eq`: looking roots of zero trees up in a table changes nothing.
-/
import SszRecord.Sha256

namespace SszRecord

/-- A digest of zero bytes. -/
def zeroDigest : Digest := ByteVector.zero 32

/-- The parts that trees over `α` are built from. -/
structure Nodes (α : Type) where
  leaf : Digest → α
  join : α → α → α
  /-- The perfect tree of the given depth whose leaves are all zero. -/
  zero : Nat → α

namespace Nodes

variable (h : Digest → Digest → Digest)

/-- The root of the perfect tree of a depth whose leaves are all zero. -/
def zeroRoot : Nat → Digest
  | 0 => zeroDigest
  | depth + 1 =>
    let below := zeroRoot depth
    h below below

/-- Digests joined by a hash function. -/
def ofHash : Nodes Digest where
  leaf := id
  join := h
  zero := zeroRoot h

/-- A rung and as many rungs above it, each one joining the one below with itself. -/
def ladderFrom (rung : Digest) : Nat → List Digest
  | 0 => [rung]
  | n + 1 => rung :: ladderFrom (h rung rung) n

/-- The roots of the trees of zero leaves of depth zero up to `depth`. -/
def ladder (depth : Nat) : List Digest := ladderFrom h zeroDigest depth

/-- As `ofHash`, with the first rungs of the zero ladder kept in a table. -/
def tabulated (depth : Nat) : Nodes Digest :=
  let table := (ladder h depth).toArray
  { ofHash h with zero := fun k => table[k]?.getD (zeroRoot h k) }

/-- As `ofHash`, with nothing but the given rungs for the roots of zero trees. -/
def onLadder (rungs : List Digest) : Nodes Digest :=
  { ofHash h with zero := fun k => rungs.getD k zeroDigest }

theorem ladderFrom_getElem? (base n k : Nat) (hk : k ≤ n) :
    (ladderFrom h (zeroRoot h base) n)[k]? = some (zeroRoot h (base + k)) := by
  induction n generalizing base k with
  | zero =>
    obtain rfl : k = 0 := by omega
    rfl
  | succ n ih =>
    cases k with
    | zero => rfl
    | succ k =>
      have hrest := ih (base + 1) k (by omega)
      have hindex : base + 1 + k = base + (k + 1) := by omega
      rw [hindex] at hrest
      rw [zeroRoot] at hrest
      simpa only [ladderFrom, List.getElem?_cons_succ] using hrest

theorem length_ladderFrom (rung : Digest) (n : Nat) : (ladderFrom h rung n).length = n + 1 := by
  induction n generalizing rung with
  | zero => rfl
  | succ n ih => simp [ladderFrom, ih]

theorem ladder_getElem? (depth k : Nat) (hk : k ≤ depth) :
    (ladder h depth)[k]? = some (zeroRoot h k) := by
  have := ladderFrom_getElem? h 0 depth k hk
  rwa [Nat.zero_add] at this

theorem tabulated_eq (depth : Nat) : tabulated h depth = ofHash h := by
  have hzero (k : Nat) : (ladder h depth)[k]?.getD (zeroRoot h k) = zeroRoot h k := by
    by_cases hk : k ≤ depth
    · rw [ladder_getElem? h depth k hk]
      rfl
    · rw [List.getElem?_eq_none (by rw [ladder, length_ladderFrom]; omega)]
      rfl
  simp only [tabulated, ofHash, List.getElem?_toArray, hzero]

end Nodes

/-- Digests joined by SHA-256. -/
def sha256Nodes : Nodes Digest := Nodes.tabulated Sha256.hashPair 64

end SszRecord

/-
Perfect trees.

Trees over chunks are computed level by level, and their zero padding is never built.  What they
compute is the root of a perfect tree, defined here from the top down.

* `Nodes.climb_eq` : climbing from a level gives the root of the perfect tree over this level and
  the zero trees behind it;
* `treeDepth_eq_clog` : the depth of the smallest tree with room for a limit;
* `Nodes.merkleize_of_le` : the root over leaves within a limit.
-/
import Mathlib
import SszRecord.Merkle.Tree
import SszRecord.Proofs.Items

namespace SszRecord

/-! ### Depths -/

theorem treeDepth_le_iff {limit d : Nat} : treeDepth limit ≤ d ↔ limit ≤ 2 ^ d := by
  rw [treeDepth]
  by_cases h : limit ≤ 1
  · rw [if_pos h]
    exact ⟨fun _ => h.trans Nat.one_le_two_pow, fun _ => Nat.zero_le d⟩
  · have hpos : limit - 1 ≠ 0 := by omega
    rw [if_neg h, Nat.succ_le_iff, Nat.log2_lt hpos]
    omega

theorem treeDepth_eq_clog (limit : Nat) : treeDepth limit = Nat.clog 2 limit :=
  eq_of_forall_ge_iff fun _ => treeDepth_le_iff.trans (Nat.clog_le_iff_le_pow Nat.one_lt_two).symm

theorem le_two_pow_treeDepth (limit : Nat) : limit ≤ 2 ^ treeDepth limit :=
  treeDepth_le_iff.1 le_rfl

namespace Nodes

/-! ### Levels -/

section Levels

variable {α : Type} {nodes : Nodes α}

theorem length_pairUp (height : Nat) (level : List α) :
    (nodes.pairUp height level).length = (level.length + 1) / 2 := by
  induction level using pairUp.induct with
  | case1 a b rest ih =>
    rw [pairUp, List.length_cons, ih, List.length_cons, List.length_cons]
    omega
  | case2 a => simp [pairUp]
  | case3 => simp [pairUp]

/-- The nodes of the level above join neighbours, zero trees standing in behind the last node. -/
theorem getD_pairUp {height : Nat} (zero_succ : nodes.zero (height + 1) =
    nodes.join (nodes.zero height) (nodes.zero height)) (level : List α) (i : Nat) :
    (nodes.pairUp height level).getD i (nodes.zero (height + 1)) =
      nodes.join (level.getD (2 * i) (nodes.zero height))
        (level.getD (2 * i + 1) (nodes.zero height)) := by
  induction level using pairUp.induct generalizing i with
  | case1 a b rest ih =>
    cases i with
    | zero => rfl
    | succ i =>
      rw [pairUp, List.getD_cons_succ, ih, Nat.mul_succ]
      rfl
  | case2 a =>
    cases i with
    | zero => rfl
    | succ i =>
      rw [pairUp, List.getD_cons_succ, List.getD_nil, zero_succ, Nat.mul_succ]
      rfl
  | case3 => exact zero_succ

theorem merkleize_eq_ok {level : List α} {limit : Nat} {a : α} :
    nodes.merkleize level limit = .ok a ↔
      level.length ≤ limit ∧ nodes.climb 0 (treeDepth limit) level = a := by
  rw [merkleize, refuse_eq_ok, Nat.not_lt, Except.ok.injEq]

end Levels

/-! ### Perfect trees -/

variable (h : Digest → Digest → Digest)

/-- The root of the perfect tree of a depth over its leaves. -/
def perfect : (depth : Nat) → (leaf : Nat → Digest) → Digest
  | 0, leaf => leaf 0
  | depth + 1, leaf => h (perfect depth leaf) (perfect depth fun i => leaf (2 ^ depth + i))

/-- The root of the smallest perfect tree with room for `limit` leaves, zero leaves standing in
behind the last one. -/
def treeOver (limit : Nat) (leaves : List Digest) : Digest :=
  perfect h (Nat.clog 2 limit) fun i => leaves.getD i zeroDigest

/-- A perfect tree may as well be built from the bottom up. -/
theorem perfect_pairs (depth : Nat) (leaf : Nat → Digest) :
    perfect h (depth + 1) leaf = perfect h depth fun i => h (leaf (2 * i)) (leaf (2 * i + 1)) := by
  induction depth generalizing leaf with
  | zero => rfl
  | succ depth ih =>
    -- the right half of the leaves pairs up to the right half of the pairs
    have hleft (i : Nat) : 2 ^ (depth + 1) + 2 * i = 2 * (2 ^ depth + i) := by
      rw [Nat.pow_succ']
      omega
    rw [perfect, ih, ih, perfect]
    simp only [← Nat.add_assoc, hleft]

theorem climb_eq (height depth : Nat) (level : List Digest) :
    (ofHash h).climb height depth level =
      perfect h depth fun i => level.getD i (zeroRoot h height) := by
  -- one level up the nodes are pairs, and the zero trees behind them are higher by one
  induction depth generalizing height level with
  | zero =>
    cases level with
    | nil => rfl
    | cons a level => rfl
  | succ depth ih =>
    rw [climb, ih, perfect_pairs]
    exact congrArg _ (funext (getD_pairUp rfl level))

theorem merkleize_of_le {level : List Digest} {limit : Nat} (hle : level.length ≤ limit) :
    (ofHash h).merkleize level limit = .ok (treeOver h limit level) := by
  rw [merkleize_eq_ok, climb_eq, treeDepth_eq_clog]
  exact ⟨hle, rfl⟩

end Nodes

end SszRecord

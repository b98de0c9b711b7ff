/-
Checked arithmetic.

Products and sums with a word are made column by column, and a carry that is left over at the end
means that the result does not fit.  What comes out is said by numbers without a limit:

* `mulWord?_eq`, `addWord?_eq` : the result is the product or sum, if that is below `size`;
* `mulLoop_spec`, `addLoop_spec` : the same work as a loop over words, in registers that wrap around,
  keeps the number and a carry of one word, for any number of words;
* `calculation_exact` : a whole calculation keeps the number that it has without a limit, where the
  steps that pass the limit are left out.
-/
import Mathlib
import SszRecord.UInt256

namespace SszRecord.UInt256

/-! ### Columns -/

/-- The columns of a sum of words make up the sum, if no carry is left. -/
theorem ofNat_columns (p0 p1 p2 p3 : Nat) :
    (let (r0, c0) := column p0
     let (r1, c1) := column (p1 + c0)
     let (r2, c2) := column (p2 + c1)
     let (r3, c3) := column (p3 + c2)
     if c3 = 0 then some (⟨r0, r1, r2, r3⟩ : UInt256) else none) =
    if p0 + UInt64.size * (p1 + UInt64.size * (p2 + UInt64.size * p3)) < size then
      some (ofNat (p0 + UInt64.size * (p1 + UInt64.size * (p2 + UInt64.size * p3))))
    else none := by
  simp only [column, ofNat]
  have hcarry :
      (p3 + (p2 + (p1 + p0 / UInt64.size) / UInt64.size) / UInt64.size) / UInt64.size = 0 ↔
      p0 + UInt64.size * (p1 + UInt64.size * (p2 + UInt64.size * p3)) < size := by
    simp only [UInt64.size, size]
    omega
  simp only [hcarry]
  split
  · congr 2 <;> rw [← UInt64.toNat_inj, UInt64.toNat_ofNat', UInt64.toNat_ofNat'] <;>
      simp only [UInt64.size] <;> omega
  · rfl

theorem mulWord?_eq (u : UInt256) (w : UInt64) :
    u.mulWord? w =
      if u.toNat * w.toNat < size then some (ofNat (u.toNat * w.toNat)) else none := by
  have hmul : u.toNat * w.toNat = u.w0.toNat * w.toNat + UInt64.size * (u.w1.toNat * w.toNat +
      UInt64.size * (u.w2.toNat * w.toNat + UInt64.size * (u.w3.toNat * w.toNat))) := by
    rw [toNat]
    ring
  rw [hmul]
  exact ofNat_columns _ _ _ _

theorem addWord?_eq (u : UInt256) (w : UInt64) :
    u.addWord? w =
      if u.toNat + w.toNat < size then some (ofNat (u.toNat + w.toNat)) else none := by
  have hadd : u.toNat + w.toNat = u.w0.toNat + w.toNat + UInt64.size * (u.w1.toNat +
      UInt64.size * (u.w2.toNat + UInt64.size * u.w3.toNat)) := by
    rw [toNat]
    ring
  rw [hadd]
  exact ofNat_columns _ _ _ _

theorem toNat_ofNat_of_lt {n : Nat} (h : n < size) : (ofNat n).toNat = n := by
  rw [toNat_ofNat, Nat.mod_eq_of_lt h]

/-! ### Loops over words -/

/-- The number of a list of words, the least significant first. -/
def ofWords : List UInt64 → Nat
  | [] => 0
  | a :: rest => a.toNat + UInt64.size * ofWords rest

/-- The words of an integer. -/
def words (u : UInt256) : List UInt64 := [u.w0, u.w1, u.w2, u.w3]

/-- Multiplies word by word.  A product and the carry are held in a register of two words, its upper
half being the next carry; the last one is handed out. -/
def mulLoop (w : UInt64) : List UInt64 → (carry : BitVec 128) → List UInt64 × BitVec 128
  | [], carry => ([], carry)
  | a :: rest, carry =>
    let product := a.toBitVec.setWidth 128 * w.toBitVec.setWidth 128 + carry
    let next := mulLoop w rest (product >>> 64)
    (⟨product.setWidth 64⟩ :: next.1, next.2)

/-- Adds a carry word by word, and stops where there is none any more. -/
def addLoop : List UInt64 → (carry : UInt64) → List UInt64 × UInt64
  | [], carry => ([], carry)
  | a :: rest, carry =>
    if carry = 0 then (a :: rest, 0)
    else
      let next := addLoop rest (if UInt64.size ≤ a.toNat + carry.toNat then 1 else 0)
      ((a + carry) :: next.1, next.2)

/-- The integer of four words, unless a carry is left with them. -/
def ofLoop? : List UInt64 → (carry : Nat) → Option UInt256
  | [w0, w1, w2, w3], 0 => some ⟨w0, w1, w2, w3⟩
  | _, _ => none

/-- The product with a word, made by the loop. -/
def loopMul? (u : UInt256) (w : UInt64) : Option UInt256 :=
  let r := mulLoop w u.words 0
  ofLoop? r.1 r.2.toNat

/-- The sum with a word, made by the loop. -/
def loopAdd? (u : UInt256) (w : UInt64) : Option UInt256 :=
  let r := addLoop u.words w
  ofLoop? r.1 r.2.toNat

/-- A product of words and a carry of one word do not fill two words. -/
theorem product_lt (a w : UInt64) {c : Nat} (h : c < UInt64.size) :
    a.toNat * w.toNat + c < UInt64.size * UInt64.size := by
  have ha : a.toNat ≤ UInt64.size - 1 := Nat.le_pred_of_lt a.toNat_lt
  have hw : w.toNat ≤ UInt64.size - 1 := Nat.le_pred_of_lt w.toNat_lt
  have hmul := Nat.mul_le_mul ha hw
  simp only [UInt64.size] at *
  omega

/-- The register never wraps around, and every carry is one word. -/
theorem mulLoop_spec (w : UInt64) (ws : List UInt64) (carry : BitVec 128)
    (h : carry.toNat < UInt64.size) :
    (mulLoop w ws carry).1.length = ws.length ∧
      (mulLoop w ws carry).2.toNat < UInt64.size ∧
      ofWords (mulLoop w ws carry).1 + UInt64.size ^ ws.length * (mulLoop w ws carry).2.toNat =
        ofWords ws * w.toNat + carry.toNat := by
  induction ws generalizing carry with
  | nil => exact ⟨rfl, h, by simp [mulLoop, ofWords]⟩
  | cons a ws ih =>
    -- the register does not wrap around, so that it may be read over the numbers
    have hlt := product_lt a w h
    have hexact : (a.toBitVec.setWidth 128 * w.toBitVec.setWidth 128 + carry).toNat =
        a.toNat * w.toNat + carry.toNat := by
      have hwide (x : UInt64) : (x.toBitVec.setWidth 128).toNat = x.toNat := by
        rw [BitVec.toNat_setWidth_of_le (by decide), UInt64.toNat_toBitVec]
      rw [BitVec.toNat_add, BitVec.toNat_mul, hwide, hwide, Nat.mod_add_mod]
      exact Nat.mod_eq_of_lt hlt
    rw [mulLoop]
    generalize a.toBitVec.setWidth 128 * w.toBitVec.setWidth 128 + carry = product at hexact ⊢
    have hcarry : (product >>> 64).toNat = product.toNat / UInt64.size := by
      rw [BitVec.toNat_ushiftRight, Nat.shiftRight_eq_div_pow]
    have hword : (⟨product.setWidth 64⟩ : UInt64).toNat = product.toNat % UInt64.size := by
      rw [← UInt64.toNat_toBitVec, BitVec.toNat_setWidth]
    obtain ⟨hlen, hlast, hvalue⟩ := ih (product >>> 64) (by
      rw [hcarry, hexact]
      exact Nat.div_lt_of_lt_mul hlt)
    refine ⟨by simp [hlen], hlast, ?_⟩
    rw [hcarry] at hvalue
    calc ofWords (⟨product.setWidth 64⟩ :: (mulLoop w ws (product >>> 64)).1) +
          UInt64.size ^ (ws.length + 1) * (mulLoop w ws (product >>> 64)).2.toNat
        = product.toNat % UInt64.size + UInt64.size *
            (ofWords (mulLoop w ws (product >>> 64)).1 +
              UInt64.size ^ ws.length * (mulLoop w ws (product >>> 64)).2.toNat) := by
          rw [ofWords, hword]
          ring
      _ = product.toNat % UInt64.size + UInt64.size * (product.toNat / UInt64.size) +
            UInt64.size * (ofWords ws * w.toNat) := by
          rw [hvalue]
          ring
      _ = ofWords (a :: ws) * w.toNat + carry.toNat := by
          rw [Nat.mod_add_div, hexact, ofWords]
          ring

/-- The words behind the last carry are left as they are. -/
theorem addLoop_spec (ws : List UInt64) (carry : UInt64) :
    (addLoop ws carry).1.length = ws.length ∧
      ofWords (addLoop ws carry).1 + UInt64.size ^ ws.length * (addLoop ws carry).2.toNat =
        ofWords ws + carry.toNat := by
  induction ws generalizing carry with
  | nil => exact ⟨rfl, by simp [addLoop, ofWords]⟩
  | cons a ws ih =>
    rw [addLoop]
    split
    · -- the loop stops, and the words that are left stay as they are
      rename_i hzero
      subst hzero
      exact ⟨rfl, by simp⟩
    · obtain ⟨hlen, hvalue⟩ := ih (if UInt64.size ≤ a.toNat + carry.toNat then 1 else 0)
      have hcarry : (if UInt64.size ≤ a.toNat + carry.toNat then 1 else 0 : UInt64).toNat =
          (a.toNat + carry.toNat) / UInt64.size := by
        have ha := a.toNat_lt
        have hc := carry.toNat_lt
        split <;> simp only [UInt64.toNat_one, UInt64.toNat_zero, UInt64.size] at * <;> omega
      generalize (if UInt64.size ≤ a.toNat + carry.toNat then 1 else 0 : UInt64) = next
        at hlen hvalue hcarry ⊢
      refine ⟨by simp [hlen], ?_⟩
      rw [hcarry] at hvalue
      calc ofWords ((a + carry) :: (addLoop ws next).1) +
            UInt64.size ^ (ws.length + 1) * (addLoop ws next).2.toNat
          = (a + carry).toNat + UInt64.size * (ofWords (addLoop ws next).1 +
              UInt64.size ^ ws.length * (addLoop ws next).2.toNat) := by
            rw [ofWords]
            ring
        _ = (a.toNat + carry.toNat) % UInt64.size +
              UInt64.size * ((a.toNat + carry.toNat) / UInt64.size) +
                UInt64.size * ofWords ws := by
            rw [hvalue, UInt64.toNat_add]
            ring
        _ = ofWords (a :: ws) + carry.toNat := by
            rw [Nat.mod_add_div, ofWords]
            ring

/-- Four words and a carry, read as a number, are that number unless it does not fit. -/
theorem ofLoop?_eq {ws : List UInt64} {carry n : Nat} (length : ws.length = 4)
    (value : ofWords ws + UInt64.size ^ 4 * carry = n) :
    ofLoop? ws carry = if n < size then some (ofNat n) else none := by
  obtain ⟨w0, w1, w2, w3, rfl⟩ := List.length_eq_four.1 length
  have hvalue : ofWords [w0, w1, w2, w3] = (⟨w0, w1, w2, w3⟩ : UInt256).toNat := rfl
  have hlt := toNat_lt ⟨w0, w1, w2, w3⟩
  rw [hvalue] at value
  have hpow : UInt64.size ^ 4 = size := by norm_num [UInt64.size]
  rw [hpow] at value
  cases carry with
  | zero =>
    rw [Nat.mul_zero, Nat.add_zero] at value
    rw [← value, if_pos hlt, ofNat_toNat, ofLoop?]
  | succ carry =>
    rw [if_neg (by rw [← value, Nat.mul_succ]; omega)]
    rfl

theorem loopMul?_eq (u : UInt256) (w : UInt64) : u.loopMul? w = u.mulWord? w := by
  obtain ⟨hlen, -, hvalue⟩ := mulLoop_spec w u.words 0 (by decide)
  rw [mulWord?_eq]
  exact ofLoop?_eq hlen hvalue

theorem loopAdd?_eq (u : UInt256) (w : UInt64) : u.loopAdd? w = u.addWord? w := by
  obtain ⟨hlen, hvalue⟩ := addLoop_spec u.words w
  rw [addWord?_eq]
  exact ofLoop?_eq hlen hvalue

/-! ### Calculations -/

namespace Step

/-- What a step gives for a number, without a limit. -/
def value (n : Nat) : Step → Nat
  | .mul w => n * w.toNat
  | .add w => n + w.toNat

/-- The number that is kept after a step: one that passes the limit is left out. -/
def keep (n : Nat) (s : Step) : Nat := if s.value n < size then s.value n else n

/-- A step that is made by a loop over words. -/
def loop? (u : UInt256) : Step → Option UInt256
  | .mul w => u.loopMul? w
  | .add w => u.loopAdd? w

theorem loop?_eq (u : UInt256) (s : Step) : s.loop? u = s.run? u := by
  cases s with
  | mul w => exact loopMul?_eq u w
  | add w => exact loopAdd?_eq u w

/-- A step is exact, or it does not fit. -/
theorem run?_eq (u : UInt256) (s : Step) :
    s.run? u = if s.value u.toNat < size then some (ofNat (s.value u.toNat)) else none := by
  cases s with
  | mul w => exact mulWord?_eq u w
  | add w => exact addWord?_eq u w

theorem run?_eq_none {u : UInt256} {s : Step} : s.run? u = none ↔ size ≤ s.value u.toNat := by
  rw [run?_eq, ite_eq_right_iff, ← not_lt]
  exact ⟨fun h hlt => Option.some_ne_none _ (h hlt), fun h hlt => absurd hlt h⟩

/-- What is kept after a step. -/
theorem toNat_getD_run? (u : UInt256) (s : Step) :
    ((s.run? u).getD u).toNat = s.keep u.toNat := by
  rw [run?_eq, keep]
  split
  · rename_i h
    exact toNat_ofNat_of_lt h
  · rfl

end Step

/-- The integer that is kept after some steps. -/
def after (u : UInt256) (steps : List Step) : UInt256 :=
  steps.foldl (fun v s => (s.run? v).getD v) u

theorem toNat_after (u : UInt256) (steps : List Step) :
    (u.after steps).toNat = steps.foldl Step.keep u.toNat := by
  induction steps generalizing u with
  | nil => rfl
  | cons s steps ih =>
    rw [List.foldl_cons, ← Step.toNat_getD_run?]
    exact ih _

/-- The answers to a calculation are those to its steps, each on what is kept before it. -/
theorem trace_concat (u : UInt256) (steps : List Step) (s : Step) :
    u.trace (steps ++ [s]) = u.trace steps ++ [s.run? (u.after steps)] := by
  induction steps generalizing u with
  | nil => rfl
  | cons t steps ih =>
    rw [List.cons_append, trace, trace, ih, List.cons_append]
    rfl

/-- **Calculations are exact.**  After any steps the integer denotes the number that they give
without a limit, where a step that passes the limit is left out; the step behind them gives nothing
exactly if it passes the limit; and it is the same step if it is made in registers of machine
words. -/
theorem calculation_exact (u : UInt256) (steps : List Step) (s : Step) :
    (u.after steps).toNat = steps.foldl Step.keep u.toNat ∧
      u.trace (steps ++ [s]) = u.trace steps ++ [s.run? (u.after steps)] ∧
      (s.run? (u.after steps) = none ↔ size ≤ s.value (steps.foldl Step.keep u.toNat)) ∧
      s.loop? (u.after steps) = s.run? (u.after steps) := by
  refine ⟨toNat_after u steps, trace_concat u steps s, ?_, Step.loop?_eq _ s⟩
  rw [Step.run?_eq_none, toNat_after]

/-- A carry through all words is lost at the end, and the integer stays. -/
example : UInt256.trace (ofNat (size - 1)) [.add 1, .mul 1] = [none, some (ofNat (size - 1))] := by
  decide

end SszRecord.UInt256

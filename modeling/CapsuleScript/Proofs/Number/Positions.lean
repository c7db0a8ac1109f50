import CapsuleScript.Proofs.Number.Exact
import CapsuleScript.Value.Basic
import Mathlib

/-! The positions that numbers name, told by the rational numbers that they stand for. -/

namespace CapsuleScript

namespace Binary64

theorem fraction_eq (m : Nat) (e : Int) :
    ((fraction m e).1 : ℚ) / (fraction m e).2 = m * 2 ^ e := by
  have hpow (k : Nat) : ((Nat.pow 2 k : Nat) : ℚ) = 2 ^ (k : Int) := by
    have hpower : Nat.pow 2 k = 2 ^ k := rfl
    rw [hpower, zpow_natCast, Nat.cast_pow, Nat.cast_ofNat]
  have hexponent : (e.toNat : Int) - ((-e).toNat : Int) = e := by omega
  rw [fraction, Nat.cast_mul, hpow, hpow, mul_div_assoc, ← zpow_sub₀ (by norm_num), hexponent]

end Binary64

namespace Number

open Binary64

variable {x z : Float} {q : ℚ} {i : Int} {n : Nat}

/-- A number is cut off to a position if it is above minus one and small enough to be exact. -/
theorem StandsFor.truncate?_eq (hx : StandsFor x q) : (Binary64.ofFloat x).truncate? =
    if -1 < q ∧ ⌊q⌋₊ ≤ maxExact then some ⌊q⌋₊ else none := by
  rw [StandsFor] at hx
  cases htaken : Binary64.ofFloat x with
  | nan => rw [htaken] at hx; cases hx
  | infinite negative => rw [htaken] at hx; cases hx
  | finite negative m e =>
      have hwhole : (fraction m e).1 / (fraction m e).2 = ⌊(m : ℚ) * 2 ^ e⌋₊ := by
        rw [← fraction_eq, Nat.floor_div_eq_div]
      have hsize : (0 : ℚ) ≤ m * 2 ^ e := by positivity
      rw [htaken, toRat?, mul_assoc] at hx
      obtain rfl := Option.some.inj hx
      rw [truncate?]
      simp only [hwhole]
      cases negative with
      | false =>
          have habove : (-1 : ℚ) < m * 2 ^ e := by linarith
          simp only [Bool.false_eq_true, false_and, if_false, one_mul, habove, true_and]
          simp only [← Nat.not_lt, ite_not]
      | true =>
          -- What is cut off to zero is all of the number.
          have hnone : ⌊-((m : ℚ) * 2 ^ e)⌋₊ = 0 := Nat.floor_of_nonpos (by linarith)
          have hcut : ⌊(m : ℚ) * 2 ^ e⌋₊ = 0 ↔ -1 < -((m : ℚ) * 2 ^ e) := by
            rw [Nat.floor_eq_zero, neg_lt_neg_iff]
          simp only [if_true, neg_one_mul, hnone, true_and, Nat.zero_le, and_true]
          by_cases hzero : ⌊(m : ℚ) * 2 ^ e⌋₊ = 0
          · simp [hzero, hcut.mp hzero]
          · rw [if_pos hzero, if_neg (mt hcut.mpr hzero)]

/-- A number counted from the start of a sequence of `n` elements, a negative one being counted
from its end. -/
def fromStart (q : ℚ) (n : Nat) : ℚ := if q < 0 then q + n else q

/-- The position of a number is told by the sum that a negative one is replaced by, if that sum is
a floating point number. -/
theorem StandsFor.position?_eq (hx : StandsFor x q) (hn : n ≤ maxExact)
    (hz : StandsFor z (fromStart q n)) : position? x n =
      if -1 < fromStart q n ∧ ⌊fromStart q n⌋₊ ≤ maxExact then some ⌊fromStart q n⌋₊ else none := by
  have hadjusted : StandsFor (if x < 0.0 then x + ofLength n else x) (fromStart q n) := by
    rw [fromStart] at hz ⊢
    by_cases hneg : q < 0
    · have hlength : StandsFor (ofLength n) n := by
        have hsmall : n < 2 ^ 53 := Nat.lt_of_le_of_lt hn (by decide)
        rw [ofLength, Nat.min_eq_left hn]
        exact standsFor_ofNat hsmall
      rw [if_pos hneg] at hz
      rw [if_pos (hx.lt_zero.mpr hneg), if_pos hneg]
      exact hx.add hlength hz
    · rw [if_neg (mt hx.lt_zero.mp hneg), if_neg hneg]
      exact hx
  exact hadjusted.truncate?_eq

theorem StandsFor.elementIndex?_eq (hx : StandsFor x q) (hn : n ≤ maxExact)
    (hz : StandsFor z (fromStart q n)) : elementIndex? x n =
      if -1 < fromStart q n ∧ ⌊fromStart q n⌋₊ < n then some ⌊fromStart q n⌋₊ else none := by
  rw [elementIndex?, hx.position?_eq hn hz]
  grind

theorem StandsFor.splitOffset?_eq (hx : StandsFor x q) (hn : n ≤ maxExact)
    (hz : StandsFor z (fromStart q n)) : splitOffset? x n =
      if -1 < fromStart q n ∧ ⌊fromStart q n⌋₊ ≤ n then some ⌊fromStart q n⌋₊ else none := by
  rw [splitOffset?, hx.position?_eq hn hz]
  grind

/-! ### Whole numbers -/

/-- The place that the whole number `i` names in a sequence of `n` elements. -/
def place (i : Int) (n : Nat) : Int := if i < 0 then i + n else i

theorem fromStart_intCast (i : Int) (n : Nat) : fromStart i n = (place i n : Int) := by
  simp only [fromStart, place, Int.cast_lt_zero]
  split <;> push_cast <;> rfl

theorem natFloor_intCast (i : Int) : ⌊(i : ℚ)⌋₊ = i.toNat := by
  rw [← Int.floor_toNat, Int.floor_intCast]

section

variable (hx : StandsFor x n) (hn : n < 2 ^ 53)

include hx hn

theorem truncate?_natCast : (Binary64.ofFloat x).truncate? = some n := by
  have hsmall : n ≤ maxExact := Nat.le_sub_one_of_lt hn
  have hnonneg : (0 : ℚ) ≤ n := n.cast_nonneg
  have habove : (-1 : ℚ) < n := by linarith
  rw [hx.truncate?_eq, Nat.floor_natCast, if_pos ⟨habove, hsmall⟩]

/-- A whole number below `2 ^ 53` says how often to repeat. -/
theorem repeatCount?_natCast : repeatCount? x = some n :=
  truncate?_natCast hx hn

/-- A position from the start is found in a sequence of any length. -/
theorem elementIndex?_natCast (length : Nat) :
    elementIndex? x length = if n < length then some n else none := by
  have hnonneg : ¬ x < 0.0 := by
    rw [hx.lt_zero, not_lt]
    exact n.cast_nonneg
  rw [elementIndex?, position?, if_neg hnonneg, truncate?_natCast hx hn]
  rw [Option.filter_some]
  simp only [decide_eq_true_eq]

end

section

variable (hx : StandsFor x i) (hi : i.natAbs < 2 ^ 53) (hn : n < 2 ^ 53)

include hi hn in
theorem standsFor_place : StandsFor (Float.ofInt (place i n)) (fromStart i n) := by
  rw [fromStart_intCast]
  refine standsFor_ofInt ?_
  rw [place]
  split <;> omega

include hx hi hn

theorem elementIndex?_eq : elementIndex? x n =
    if -n ≤ i ∧ i < n then some (place i n).toNat else none := by
  have hsmall : n ≤ maxExact := Nat.le_sub_one_of_lt hn
  rw [hx.elementIndex?_eq hsmall (standsFor_place hi hn), fromStart_intCast, natFloor_intCast]
  have hlow : (-1 : ℚ) < (place i n : Int) ↔ -1 < place i n := by exact_mod_cast Iff.rfl
  have hrange : (-1 < place i n ∧ (place i n).toNat < n) ↔ -(n : Int) ≤ i ∧ i < n := by
    rw [place]
    split <;> omega
  simp only [hlow, hrange]

theorem splitOffset?_eq : splitOffset? x n =
    if -n ≤ i ∧ i ≤ n then some (place i n).toNat else none := by
  have hsmall : n ≤ maxExact := Nat.le_sub_one_of_lt hn
  rw [hx.splitOffset?_eq hsmall (standsFor_place hi hn), fromStart_intCast, natFloor_intCast]
  have hlow : (-1 : ℚ) < (place i n : Int) ↔ -1 < place i n := by exact_mod_cast Iff.rfl
  have hrange : (-1 < place i n ∧ (place i n).toNat ≤ n) ↔ -(n : Int) ≤ i ∧ i ≤ n := by
    rw [place]
    split <;> omega
  simp only [hlow, hrange]

end

/-- Sequences too long for their length to be exact are counted as if they were shorter. -/
theorem position?_of_le (hn : maxExact ≤ n) (x : Float) : position? x n = position? x maxExact := by
  rw [position?, position?, ofLength, ofLength, Nat.min_eq_right hn, Nat.min_self]

/-- In a sequence too long for its length to be exact negative positions do not count from the
end. -/
theorem elementIndex?_of_le (hx : StandsFor x i) (hi : i.natAbs < 2 ^ 53) (hneg : i < 0)
    (hn : maxExact ≤ n) : elementIndex? x n = some (i + maxExact).toNat := by
  have hshort := elementIndex?_eq hx hi (n := maxExact) (by decide)
  have hlow : -(maxExact : Int) ≤ i := by
    have : maxExact = 2 ^ 53 - 1 := rfl
    omega
  rw [if_pos ⟨hlow, by omega⟩, place, if_pos hneg, elementIndex?,
    Option.filter_eq_some_iff] at hshort
  have hlt := of_decide_eq_true hshort.2
  rw [elementIndex?, position?_of_le hn, Option.filter_eq_some_iff]
  exact ⟨hshort.1, decide_eq_true (Nat.lt_of_lt_of_le hlt hn)⟩

end Number

/-- The operand counts as the whole number `i`. -/
def Value.IsWhole (w : Value) (i : Int) : Prop := ∃ x, w.number? = some x ∧ Number.StandsFor x i

theorem Value.isWhole_ofInt {i : Int} (hi : i.natAbs < 2 ^ 53) :
    (Value.number (Float.ofInt i)).IsWhole i :=
  ⟨_, rfl, Number.standsFor_ofInt hi⟩

end CapsuleScript

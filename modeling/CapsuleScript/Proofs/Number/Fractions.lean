import CapsuleScript.Proofs.Number.Positions
import Mathlib

/-! Fractions as positions. A fraction from the start of a sequence counts as the whole number that
is left when it is cut off towards zero. One from the end is cut off after it has been added to the
length, so inside the sequence it counts as the whole number below it, which lies one place before
the one that it is cut off to. -/

namespace CapsuleScript.Number

variable {x t z : Float} {q : ℚ} {n : Nat}

/-- The whole number that is left of `q` when it is cut off towards zero. -/
def towardsZero (q : ℚ) : Int := if q < 0 then ⌈q⌉ else ⌊q⌋

theorem towardsZero_of_neg (hneg : q < 0) : towardsZero q = ⌈q⌉ := if_pos hneg

theorem towardsZero_of_nonneg (hq : 0 ≤ q) : towardsZero q = ⌊q⌋ := if_neg (not_lt.mpr hq)

theorem natAbs_towardsZero_lt (hq : |q| < 2 ^ 53) : (towardsZero q).natAbs < 2 ^ 53 := by
  obtain ⟨hlow, hhigh⟩ := abs_lt.mp hq
  rcases lt_or_ge q 0 with hneg | hpos
  · have habove : (-2 ^ 53 : Int) < ⌈q⌉ := Int.lt_ceil.mpr (by push_cast; exact hlow)
    have hbelow : ⌈q⌉ ≤ 0 := Int.ceil_le.mpr (by push_cast; exact hneg.le)
    rw [towardsZero_of_neg hneg]
    omega
  · have hbelow : ⌊q⌋ < (2 ^ 53 : Int) := Int.floor_lt.mpr (by push_cast; exact hhigh)
    have habove : 0 ≤ ⌊q⌋ := Int.floor_nonneg.mpr hpos
    rw [towardsZero_of_nonneg hpos]
    omega

/-- Of a fraction that is counted from the end, the whole number above tells whether it is still in
front of the sequence, and the one below where it is. -/
theorem floor_fromStart_of_neg (hneg : q < 0) (n : Nat) :
    (-1 < fromStart q n ↔ -n ≤ ⌈q⌉) ∧ ⌊fromStart q n⌋₊ = (⌊q⌋ + n).toNat := by
  rw [fromStart, if_pos hneg]
  constructor
  · calc -1 < q + n ↔ ((-n - 1 : Int) : ℚ) < q := by
          push_cast
          constructor <;> intro h <;> linarith
      _ ↔ -(n : Int) - 1 < ⌈q⌉ := Int.lt_ceil.symm
      _ ↔ -(n : Int) ≤ ⌈q⌉ := by omega
  · rw [← Int.floor_toNat, Int.floor_add_natCast]

/-- The number is whole if there is nothing between its neighbours. -/
theorem eq_ceil_iff (q : ℚ) : q = ⌈q⌉ ↔ ⌈q⌉ ≤ ⌊q⌋ := by
  constructor
  · intro hwhole
    rw [hwhole, Int.ceil_intCast, Int.floor_intCast]
  · intro hle
    have hbelow : ((⌈q⌉ : Int) : ℚ) ≤ ⌊q⌋ := Int.cast_le.mpr hle
    exact le_antisymm (Int.le_ceil q) (hbelow.trans (Int.floor_le q))

section

variable (hx : StandsFor x q) (hq : |q| < 2 ^ 53) (hn : n < 2 ^ 53) (hz : StandsFor z (q + n))
variable (ht : StandsFor t (towardsZero q))

include hx hn hz in
theorem elementIndex?_of_neg (hneg : q < 0) : elementIndex? x n =
    if -n ≤ ⌈q⌉ ∧ (⌊q⌋ + n).toNat < n then some (⌊q⌋ + n).toNat else none := by
  have hsum : StandsFor z (fromStart q n) := by rwa [fromStart, if_pos hneg]
  obtain ⟨hlow, hfloor⟩ := floor_fromStart_of_neg hneg n
  rw [hx.elementIndex?_eq (Nat.le_sub_one_of_lt hn) hsum, hfloor]
  simp only [hlow]

include hx hn hz in
theorem splitOffset?_of_neg (hneg : q < 0) : splitOffset? x n =
    if -n ≤ ⌈q⌉ ∧ (⌊q⌋ + n).toNat ≤ n then some (⌊q⌋ + n).toNat else none := by
  have hsum : StandsFor z (fromStart q n) := by rwa [fromStart, if_pos hneg]
  obtain ⟨hlow, hfloor⟩ := floor_fromStart_of_neg hneg n
  rw [hx.splitOffset?_eq (Nat.le_sub_one_of_lt hn) hsum, hfloor]
  simp only [hlow]

include hx hq hn ht in
/-- From the start a fraction counts as what is left of it. -/
theorem positions_eq_of_nonneg (hpos : 0 ≤ q) :
    elementIndex? x n = elementIndex? t n ∧ splitOffset? x n = splitOffset? t n := by
  have hsmall : n ≤ maxExact := Nat.le_sub_one_of_lt hn
  have hstart : fromStart q n = q := if_neg (not_lt.mpr hpos)
  have hfloor : 0 ≤ ⌊q⌋ := Int.floor_nonneg.mpr hpos
  have hplace : place ⌊q⌋ n = ⌊q⌋ := if_neg (not_lt.mpr hfloor)
  have hwhole := natAbs_towardsZero_lt hq
  have habove : -1 < q := by linarith
  rw [towardsZero_of_nonneg hpos] at ht hwhole
  rw [hx.elementIndex?_eq hsmall (hstart.symm ▸ hx), hx.splitOffset?_eq hsmall (hstart.symm ▸ hx),
    elementIndex?_eq ht hwhole hn, splitOffset?_eq ht hwhole hn, hplace, hstart, ← Int.floor_toNat]
  grind

include hx hq hn hz ht

/-- **Fractions and what they are cut off to.** A position that is not from the end, that is a whole
number or that lies in front of the sequence counts as the whole number that it is cut off to
towards zero, and so does every position in a sequence of one element. All others do not: they count
as the whole number below them. -/
theorem positions_eq_towardsZero_iff :
    ((elementIndex? x n = elementIndex? t n ↔ 0 ≤ q ∨ q = towardsZero q ∨ q + n < 0 ∨ n = 1) ∧
      (splitOffset? x n = splitOffset? t n ↔ 0 ≤ q ∨ q = towardsZero q ∨ q + n < 0 ∨ n = 1)) ∧
    (q < 0 → 0 ≤ q + n →
      elementIndex? x n = some (⌊q⌋ + n).toNat ∧ splitOffset? x n = some (⌊q⌋ + n).toNat) := by
  rcases lt_or_ge q 0 with hneg | hpos
  · have hceil : ⌈q⌉ ≤ 0 := Int.ceil_le.mpr (by push_cast; exact hneg.le)
    have hfloor : ⌊q⌋ < 0 := Int.floor_lt.mpr (by push_cast; exact hneg)
    have hfront : q + n < 0 ↔ ⌊q⌋ + n < 0 := by
      rw [← Int.floor_add_natCast, Int.floor_lt, Int.cast_zero]
    have hwhole := natAbs_towardsZero_lt hq
    rw [towardsZero_of_neg hneg] at ht hwhole ⊢
    rw [elementIndex?_of_neg hx hn hz hneg, splitOffset?_of_neg hx hn hz hneg,
      elementIndex?_eq ht hwhole hn, splitOffset?_eq ht hwhole hn, eq_ceil_iff,
      ← not_lt (a := q + n), hfront, place]
    -- What is left to compare are the two whole numbers next to `q`.
    have hnext : ⌈q⌉ ≤ ⌊q⌋ + 1 := Int.ceil_le_floor_add_one q
    have horder : ⌊q⌋ ≤ ⌈q⌉ := Int.floor_le_ceil q
    clear hx hq hz ht hfront hwhole
    generalize ⌊q⌋ = below at *
    generalize ⌈q⌉ = above at *
    grind
  · have hsame := positions_eq_of_nonneg hx hq hn ht hpos
    exact ⟨⟨by simp [hsame, hpos], by simp [hsame, hpos]⟩, fun hneg =>
      absurd hpos (not_le.mpr hneg)⟩

end

/-- One and a half from the end of three elements, as numbers. -/
theorem standsFor_half : StandsFor (-1.5) (-3 / 2) ∧ StandsFor 1.5 (-3 / 2 + (3 : Nat)) ∧
    StandsFor (-1.0) (towardsZero (-3 / 2)) := by
  have hwhole : towardsZero (-3 / 2) = -1 := by norm_num [towardsZero]
  rw [hwhole]
  unfold StandsFor
  decide +kernel

theorem positions_eq_towardsZero_iff_half :
    (StandsFor (-1.5) (-3 / 2) ∧ |(-3 / 2 : ℚ)| < 2 ^ 53 ∧ 3 < 2 ^ 53 ∧
      StandsFor 1.5 (-3 / 2 + (3 : Nat)) ∧ StandsFor (-1.0) (towardsZero (-3 / 2))) ∧
    elementIndex? (-1.5) 3 = some 1 ∧ splitOffset? (-1.5) 3 = some 1 := by
  have hfloor : ⌊(-3 / 2 : ℚ)⌋ = -2 := by norm_num
  have hq : |(-3 / 2 : ℚ)| < 2 ^ 53 := by norm_num [abs_lt]
  have hn : 3 < 2 ^ 53 := by decide
  obtain ⟨hx, hz, ht⟩ := standsFor_half
  have hbelow := (positions_eq_towardsZero_iff hx hq hn hz ht).2 (by norm_num) (by norm_num)
  rw [hfloor] at hbelow
  exact ⟨⟨hx, hq, hn, hz, ht⟩, hbelow⟩

/-- One and a half from the end of three elements is the element in the middle; cut off, it is one
from the end, which is the last element. -/
theorem exists_positions_ne_towardsZero : ∃ (x t z : Float) (q : ℚ) (n : Nat),
    n < 2 ^ 53 ∧ StandsFor x q ∧ |q| < 2 ^ 53 ∧ StandsFor z (q + n) ∧
    StandsFor t (towardsZero q) ∧
    elementIndex? x n ≠ elementIndex? t n ∧ splitOffset? x n ≠ splitOffset? t n := by
  have hq : |(-3 / 2 : ℚ)| < 2 ^ 53 := by norm_num [abs_lt]
  obtain ⟨hx, hz, ht⟩ := standsFor_half
  exact ⟨-1.5, -1.0, 1.5, -3 / 2, 3, by decide, hx, hq, hz, ht, by decide +kernel,
    by decide +kernel⟩

end CapsuleScript.Number

import CapsuleScript.Number.Index
import Mathlib

/-! Exact arithmetic. A finite floating point number stands for a rational number. -/

namespace CapsuleScript

open Float.Model Float.Model.UnpackedFloat

namespace Binary64

/-- The rational number that a finite number is. -/
def toRat? : Binary64 → Option ℚ
  | .nan => none
  | .infinite _ => none
  | .finite negative significand exponent =>
    some ((if negative then -1 else 1) * significand * 2 ^ exponent)

/-- Whether a sign is that of negative numbers. -/
def isNegative : Sign → Bool
  | .negative => true
  | .positive => false

/-- The number that the floating point operations of the core library work on. -/
def ofUnpacked : UnpackedFloat → Binary64
  | .notANumber => .nan
  | .infinity s => .infinite (isNegative s)
  | .zero s => .finite (isNegative s) 0 minExponent
  | .finite s m e _ => .finite (isNegative s) m e

section

variable (b : BitVec 64)

theorem toNat_unpackMantissa :
    (@unpackMantissa Format.binary64 b).toNat = b.toNat % Nat.pow 2 52 := by
  rw [unpackMantissa_def, BitVec.extractLsb'_toNat, Nat.shiftRight_zero]
  rfl

theorem toNat_unpackExponent :
    (@unpackExponent Format.binary64 b).toNat = b.toNat / Nat.pow 2 52 % Nat.pow 2 11 := by
  rw [unpackExponent_def, BitVec.extractLsb'_toNat, Nat.shiftRight_eq_div_pow]
  rfl

theorem isNegative_ofBitVec (sign : BitVec 1) :
    isNegative (Sign.ofBitVec sign) = (sign.toNat == 1) := by
  decide +revert

theorem toNat_unpackSign :
    (@unpackSign Format.binary64 b).toNat = b.toNat / Nat.pow 2 63 % 2 := by
  rw [unpackSign_def, BitVec.extractLsb'_toNat, Nat.shiftRight_eq_div_pow]
  rfl

end

/-- The two ways of taking a number apart agree. -/
theorem ofFloat_eq_ofUnpacked (x : Float) : ofFloat x = ofUnpacked x.toModel.unpack := by
  have hmantissa := toNat_unpackMantissa x.toModel.toBits.toBitVec
  have hexponent := toNat_unpackExponent x.toModel.toBits.toBitVec
  have hsign := toNat_unpackSign x.toModel.toBits.toBitVec
  show ofBits x.toModel.toBits.toBitVec.toNat =
    ofUnpacked (UnpackedFloat.unpack Format.binary64 x.toModel.toBits.toBitVec)
  generalize x.toModel.toBits.toBitVec = b at *
  rw [ofBits, ← hmantissa, ← hexponent, ← hsign, ← isNegative_ofBitVec]
  simp only
  have hall : @unpackExponent Format.binary64 b = -1#11 ↔
      (@unpackExponent Format.binary64 b).toNat = 2047 := by
    rw [← BitVec.toNat_inj]
    rfl
  have hnone : @unpackExponent Format.binary64 b = 0#11 ↔
      (@unpackExponent Format.binary64 b).toNat = 0 := by
    rw [← BitVec.toNat_inj]
    rfl
  have hwhole : @unpackMantissa Format.binary64 b = 0#52 ↔
      (@unpackMantissa Format.binary64 b).toNat = 0 := by
    rw [← BitVec.toNat_inj]
    rfl
  rw [UnpackedFloat.unpack]
  by_cases he : (@unpackExponent Format.binary64 b).toNat = 2047
  · rw [if_pos he, if_pos (hall.mpr he)]
    by_cases hm : (@unpackMantissa Format.binary64 b).toNat = 0
    · rw [if_pos hm, if_pos (hwhole.mpr hm), ofUnpacked]
    · rw [if_neg hm, if_neg (mt hwhole.mp hm), ofUnpacked]
  · rw [if_neg he, if_neg (mt hall.mp he)]
    by_cases he' : (@unpackExponent Format.binary64 b).toNat = 0
    · rw [if_pos he', if_pos (hnone.mpr he')]
      by_cases hm : (@unpackMantissa Format.binary64 b).toNat = 0
      · rw [dif_pos (hwhole.mpr hm), ofUnpacked, hm]
      · rw [dif_neg (mt hwhole.mp hm), ofUnpacked, he']
        rfl
    · rw [if_neg he', if_neg (mt hnone.mp he'), ofUnpacked]
      have happend : (1#1 ++ @unpackMantissa Format.binary64 b).toNat =
          Nat.pow 2 52 + (@unpackMantissa Format.binary64 b).toNat := by
        have hor := Nat.two_pow_add_eq_or_of_lt (@unpackMantissa Format.binary64 b).isLt 1
        rw [Nat.mul_one] at hor
        rw [BitVec.toNat_append, Nat.shiftLeft_eq]
        exact hor.symm
      rw [happend]
      congr 1
      show _ = ((@unpackExponent Format.binary64 b).toNat : Int) - (1023 + 52)
      rw [minExponent]
      omega

/-! ### Rounding what needs no rounding -/

/-- The exponent is the one that numbers of this size have, and no larger than that of the largest
finite number. -/
structure Fits (m : Nat) (e : Int) : Prop where
  target : Format.binary64.targetExponent (totalExponent m e) = e
  le : e ≤ 971

variable {s : Sign} {m n k : Nat} {e i : Int}

theorem log2_mul_two_pow (hm : 0 < m) (k : Nat) : (m * 2 ^ k).log2 = m.log2 + k := by
  induction k with
  | zero => simp
  | succ k ih =>
      have hpos : m * 2 ^ k ≠ 0 := Nat.ne_of_gt (Nat.mul_pos hm (Nat.two_pow_pos k))
      rw [Nat.pow_succ', Nat.mul_left_comm, Nat.log2_two_mul hpos, ih, Nat.add_assoc]

theorem totalExponent_mul (hm : 0 < m) (k : Nat) (e : Int) :
    totalExponent (m * 2 ^ k) (e - k) = totalExponent m e := by
  rw [totalExponent, totalExponent, log2_mul_two_pow hm]
  push_cast
  ring

/-- No bit is lost when zeros are shifted out. -/
theorem shiftRight_exact (m k : Nat) :
    (⟨m * 2 ^ k, false, false⟩ : ExtendedMantissa) >>> k = ⟨m, false, false⟩ := by
  induction k generalizing m with
  | zero => simp [HShiftRight.hShiftRight, Nat.repeat]
  | succ k ih =>
      show ExtendedMantissa.shiftRightOne
        ((⟨m * 2 ^ (k + 1), false, false⟩ : ExtendedMantissa) >>> k) = _
      rw [Nat.pow_succ', ← Nat.mul_assoc, ih]
      simp [ExtendedMantissa.shiftRightOne]

theorem shiftToTargetExponent_exact (hm : 0 < m) (hfits : Fits m e) (k : Nat) :
    shiftToTargetExponent Format.binary64 (m * 2 ^ k) (e - k) .exact = (⟨m, false, false⟩, e) := by
  have hsteps : (e - (e - k)).toNat = k := by omega
  rw [shiftToTargetExponent, totalExponent_mul hm, hfits.target]
  show ((⟨m * 2 ^ k, false, false⟩ : ExtendedMantissa) >>> (e - (e - k)).toNat,
    e - k + ((e - (e - k)).toNat : Int)) = _
  rw [hsteps, shiftRight_exact, Int.sub_add_cancel]

theorem roundWithAccuracy_exact (hm : 0 < m) (hfits : Fits m e) (k : Nat) :
    roundWithAccuracy Format.binary64 s (m * 2 ^ k) (e - k) .exact = .finite s m e hm := by
  have hagain : shiftToTargetExponent Format.binary64 m e .exact = (⟨m, false, false⟩, e) := by
    simpa using shiftToTargetExponent_exact hm hfits 0
  have hrounded : (⟨m, false, false⟩ : ExtendedMantissa).roundedMantissa = m := rfl
  rw [roundWithAccuracy, shiftToTargetExponent_exact hm hfits k]
  simp only [hrounded, hagain, Nat.ne_of_gt hm, dite_false]

/-- Of two ways to write a number the one with the smaller exponent has the larger significand. -/
theorem eq_mul_two_pow (hle : e ≤ i) (h : (m : ℚ) * 2 ^ e = n * 2 ^ i) :
    m = n * 2 ^ (i - e).toNat := by
  have hpow : (2 : ℚ) ^ i = 2 ^ (i - e).toNat * 2 ^ e := by
    rw [← zpow_natCast, ← zpow_add₀ (by norm_num)]
    congr 1
    omega
  rw [hpow, ← mul_assoc] at h
  exact_mod_cast mul_right_cancel₀ (zpow_ne_zero e (by norm_num : (2 : ℚ) ≠ 0)) h

/-- A number that has a canonical form is rounded to it. -/
theorem round_exact (hm : 0 < m) (hfits : Fits m e) (hsame : (n : ℚ) * 2 ^ i = m * 2 ^ e) :
    UnpackedFloat.round Format.binary64 s n i = .finite s m e hm := by
  rcases le_total i e with hle | hle
  · -- The significand has zeros at its end, and loses them.
    obtain ⟨k, rfl⟩ : ∃ k : Nat, i = e - k := ⟨(e - i).toNat, by omega⟩
    have hn : n = m * 2 ^ k := by
      have hsteps : (e - (e - k)).toNat = k := by omega
      have hmul := eq_mul_two_pow hle hsame
      rwa [hsteps] at hmul
    have hnone : (e - (k : Int) - e).toNat = 0 := by omega
    subst hn
    rw [UnpackedFloat.round, totalExponent_mul hm, hfits.target, decreaseExponent, hnone]
    simp only [Nat.shiftLeft_zero, Nat.cast_zero, Int.sub_zero]
    exact roundWithAccuracy_exact hm hfits k
  · -- Zeros are put at the end of the significand.
    obtain ⟨k, rfl⟩ : ∃ k : Nat, i = e + k := ⟨(i - e).toNat, by omega⟩
    have hsteps : (e + (k : Int) - e).toNat = k := by omega
    have hmul : m = n * 2 ^ k := by
      have hmul := eq_mul_two_pow hle hsame.symm
      rwa [hsteps] at hmul
    subst hmul
    have hn : 0 < n := Nat.pos_of_mul_pos_right hm
    have hback : totalExponent (n * 2 ^ k) e = totalExponent n (e + k) := by
      have := totalExponent_mul hn k (e + k)
      rwa [Int.add_sub_cancel] at this
    rw [UnpackedFloat.round, ← hback, hfits.target, decreaseExponent, hsteps]
    simp only [Nat.shiftLeft_eq, Int.add_sub_cancel]
    simpa using roundWithAccuracy_exact hm hfits 0

/-- A signed number that has a canonical form is brought to it. -/
theorem normalize_exact {z : Int} {zeroSign : Sign} (hm : 0 < m) (hfits : Fits m e)
    (hsame : (z : ℚ) * 2 ^ i = (s.apply m : Int) * 2 ^ e) :
    UnpackedFloat.normalize Format.binary64 z i zeroSign = .finite s m e hm := by
  have hsize : (0 : ℚ) < m * 2 ^ e := by positivity
  have hunit : (0 : ℚ) < 2 ^ i := by positivity
  cases s with
  | positive =>
      have hz : 0 < z := by
        have hpos : (0 : ℚ) < z * 2 ^ i := by simpa [hsame, Sign.apply] using hsize
        exact_mod_cast (pos_iff_pos_of_mul_pos hpos).mpr hunit
      obtain ⟨n, rfl⟩ := Int.eq_ofNat_of_zero_le hz.le
      rw [UnpackedFloat.normalize, Int.compare_eq_gt.mpr hz]
      exact round_exact hm hfits (by simpa [Sign.apply] using hsame)
  | negative =>
      have hz : z < 0 := by
        have hpos : (0 : ℚ) < (-z : Int) * 2 ^ i := by simpa [hsame, Sign.apply] using hsize
        have hneg : (0 : ℚ) < (-z : Int) := (pos_iff_pos_of_mul_pos hpos).mpr hunit
        have : 0 < -z := by exact_mod_cast hneg
        omega
      obtain ⟨n, hn⟩ := Int.eq_ofNat_of_zero_le (show 0 ≤ -z by omega)
      obtain rfl : z = -(n : Int) := by omega
      rw [UnpackedFloat.normalize, Int.compare_eq_lt.mpr hz]
      simp only [Int.neg_neg, Int.toNat_natCast]
      exact round_exact hm hfits (by simpa [Sign.apply] using hsame)

/-! ### Taking numbers apart -/

theorem fits_iff : Fits m e ↔ max ((m.log2 : Int) + 1 + e - 53) (-1074) = e ∧ e ≤ 971 :=
  ⟨fun h => ⟨h.target, h.le⟩, fun h => ⟨h.1, h.2⟩⟩

/-- Finite numbers are taken apart into their canonical forms. -/
theorem fits_ofBits {bits : Nat} {negative : Bool} (hm : m ≠ 0)
    (hbits : ofBits bits = .finite negative m e) : Fits m e := by
  have hfraction : bits % Nat.pow 2 52 < 2 ^ 52 := Nat.mod_lt _ (by decide)
  have hbiased : bits / Nat.pow 2 52 % Nat.pow 2 11 < 2048 := Nat.mod_lt _ (by decide)
  rw [fits_iff]
  rw [ofBits] at hbits
  split at hbits
  · split at hbits <;> cases hbits
  rename_i hfinite
  split at hbits
  · cases hbits
    have hlog := (Nat.log2_lt hm).mpr hfraction
    rw [minExponent]
    omega
  · injection hbits with _ hsignificand hexponent
    have hlog : m.log2 = 52 := by
      rw [Nat.log2_eq_iff hm, ← hsignificand]
      have : Nat.pow 2 52 = 2 ^ 52 := rfl
      omega
    rw [minExponent] at hexponent
    omega

theorem toNat_packComponents (s : Sign) (exponent : BitVec 11) (mantissa : BitVec 52) :
    (packComponents Format.binary64 s exponent mantissa).toNat =
      (s.toBitVec.toNat * 2 ^ 11 + exponent.toNat) * 2 ^ 52 + mantissa.toNat := by
  rw [packComponents, BitVec.toNat_append, ← Nat.shiftLeft_add_eq_or_of_lt mantissa.isLt,
    BitVec.toNat_append, ← Nat.shiftLeft_add_eq_or_of_lt exponent.isLt, Nat.shiftLeft_eq,
    Nat.shiftLeft_eq]

/-- The parts that bits are put together from are found in them again. -/
theorem ofBits_toNat_packComponents (s : Sign) {exponent : BitVec 11} (mantissa : BitVec 52)
    (hfinite : exponent.toNat ≠ 2047) :
    ofBits (packComponents Format.binary64 s exponent mantissa).toNat =
      if exponent.toNat = 0 then .finite (isNegative s) mantissa.toNat minExponent
      else .finite (isNegative s) (2 ^ 52 + mantissa.toNat) (exponent.toNat + minExponent - 1) := by
  have hsign : (s.toBitVec.toNat == 1) = isNegative s := by cases s <;> rfl
  have hsmall := s.toBitVec.isLt
  have hexponent := exponent.isLt
  have hmantissa := mantissa.isLt
  rw [toNat_packComponents]
  generalize hbits : (s.toBitVec.toNat * 2 ^ 11 + exponent.toNat) * 2 ^ 52 + mantissa.toNat = bits
  have hfirst : bits / Nat.pow 2 63 % 2 = s.toBitVec.toNat := by
    show bits / 2 ^ 63 % 2 = _
    omega
  have hsecond : bits / Nat.pow 2 52 % Nat.pow 2 11 = exponent.toNat := by
    show bits / 2 ^ 52 % 2 ^ 11 = _
    omega
  have hthird : bits % Nat.pow 2 52 = mantissa.toNat := by
    show bits % 2 ^ 52 = _
    omega
  rw [ofBits, hfirst, hsecond, hthird, hsign, if_neg hfinite]
  rfl

/-- A canonical form is packed without loss. -/
theorem ofFloat_pack (hm : 0 < m) (hfits : Fits m e) :
    ofFloat ⟨.pack (.finite s m e hm)⟩ = .finite (isNegative s) m e := by
  obtain ⟨htarget, hle⟩ := fits_iff.mp hfits
  have hbias : e + Format.binary64.exponentBias + Format.binary64.mantissaBitsWithoutImplicit =
      e + 1023 + 52 := rfl
  have hexponent : (BitVec.ofNat 11 (e + 1023 + 52).toNat).toNat = (e + 1023 + 52).toNat := by
    rw [BitVec.toNat_ofNat]
    omega
  have hfinite : ¬ 2 ^ Format.binary64.exponentBits ≤ (e + 1023 + 52).toNat + 1 := by
    show ¬ 2 ^ 11 ≤ _
    omega
  have hmantissa : (BitVec.ofNat 52 m).toNat = m % 2 ^ 52 := BitVec.toNat_ofNat m 52
  have hlog := Nat.log2_eq_iff (k := 52) (Nat.ne_of_gt hm)
  show ofBits (UnpackedFloat.pack Format.binary64 (.finite s m e hm)).toNat = _
  rw [UnpackedFloat.pack, hbias]
  simp only [hfinite, if_false]
  by_cases hnormal : m.log2 + 1 = Format.binary64.mantissaBits
  · have hnormal' : m.log2 = 52 := Nat.succ.inj hnormal
    have hsignificand := hlog.mp hnormal'
    have hback : ((e + 1023 + 52).toNat : Int) + minExponent - 1 = e := by
      rw [minExponent]
      omega
    have hwhole : 2 ^ 52 + m % 2 ^ 52 = m := by omega
    rw [if_pos hnormal, ofBits_toNat_packComponents s _ (by omega), hexponent, if_neg (by omega),
      hback, hmantissa, hwhole]
  · have hnormal' : m.log2 ≠ 52 := fun h => hnormal (congrArg Nat.succ h)
    have hsmall : m < 2 ^ 52 := (Nat.log2_lt (Nat.ne_of_gt hm)).mp (by omega)
    have hleast : e = minExponent := by
      rw [minExponent]
      omega
    rw [if_neg hnormal, ofBits_toNat_packComponents s _ (by decide), BitVec.toNat_zero,
      if_pos rfl, hmantissa, Nat.mod_eq_of_lt hsmall, hleast]

end Binary64

namespace Number

open Binary64

/-- The floating point number is finite, and is the rational number `q`. -/
def StandsFor (x : Float) (q : ℚ) : Prop := (Binary64.ofFloat x).toRat? = some q

variable {x y z : Float} {p q : ℚ}

theorem cast_apply (s : Sign) (m : Nat) :
    ((s.apply m : Int) : ℚ) = (if isNegative s then -1 else 1) * m := by
  cases s <;> simp [Sign.apply, isNegative]

theorem standsFor_iff : StandsFor x q ↔ (ofUnpacked x.toModel.unpack).toRat? = some q := by
  rw [StandsFor, ofFloat_eq_ofUnpacked]

/-- A number that stands for a rational is a zero or has a canonical form. -/
theorem StandsFor.cases (hx : StandsFor x q) : (∃ s, x.toModel.unpack = .zero s ∧ q = 0) ∨
    ∃ s m e hm, x.toModel.unpack = .finite s m e hm ∧ Fits m e ∧ q = (s.apply m : Int) * 2 ^ e := by
  have htaken : ofBits x.toBits.toNat = ofUnpacked x.toModel.unpack := ofFloat_eq_ofUnpacked x
  rw [standsFor_iff] at hx
  cases hunpack : x.toModel.unpack with
  | notANumber => simp [hunpack, ofUnpacked, toRat?] at hx
  | infinity s => simp [hunpack, ofUnpacked, toRat?] at hx
  | zero s =>
      rw [hunpack, ofUnpacked, toRat?, Nat.cast_zero, mul_zero, zero_mul] at hx
      exact .inl ⟨s, rfl, (Option.some.inj hx).symm⟩
  | finite s m e hm =>
      rw [hunpack] at htaken hx
      refine .inr ⟨s, m, e, hm, rfl, fits_ofBits (Nat.ne_of_gt hm) htaken, ?_⟩
      rw [cast_apply]
      exact (Option.some.inj hx).symm

/-- Packing what was taken out of a number gives the number. -/
theorem pack_unpack_toModel (x : Float) : (⟨.pack x.toModel.unpack⟩ : Float) = x :=
  Float.ofBits_toBits x

theorem standsFor_pack_zero (s : Sign) : StandsFor ⟨.pack (.zero s)⟩ 0 := by
  have hunpack : (Float.Model.pack (.zero s)).unpack = .zero s := by cases s <;> rfl
  rw [standsFor_iff, hunpack, ofUnpacked, toRat?, Nat.cast_zero, mul_zero, zero_mul]

/-- The significand that goes with a smaller exponent. -/
theorem apply_decreaseExponent (s : Sign) (m : Nat) {e i : Int} (hle : i ≤ e) :
    ((s.apply (decreaseExponent m e i).1 : Int) : ℚ) * 2 ^ i = (s.apply m : Int) * 2 ^ e := by
  have hpow : (2 : ℚ) ^ e = 2 ^ (e - i).toNat * 2 ^ i := by
    rw [← zpow_natCast, ← zpow_add₀ (by norm_num)]
    congr 1
    omega
  rw [decreaseExponent, cast_apply, cast_apply, Nat.shiftLeft_eq, hpow]
  push_cast
  ring

/-- A sum is exact if some number stands for it. -/
theorem StandsFor.add (hx : StandsFor x p) (hy : StandsFor y q) (hz : StandsFor z (p + q)) :
    StandsFor (x + y) (p + q) := by
  have hsum : x + y =
      ⟨.pack (UnpackedFloat.add Format.binary64 x.toModel.unpack y.toModel.unpack)⟩ := rfl
  rcases hx.cases with ⟨s, hunpackx, rfl⟩ | ⟨s, m, e, hm, hunpackx, -, hp⟩
  · rcases hy.cases with ⟨s', hunpacky, rfl⟩ | ⟨s', m', e', hm', hunpacky, -, -⟩
    · obtain ⟨sign, hzeros⟩ : ∃ sign, UnpackedFloat.add Format.binary64 (.zero s) (.zero s') =
          .zero sign := by cases s <;> cases s' <;> exact ⟨_, rfl⟩
      rw [hsum, hunpackx, hunpacky, hzeros, add_zero]
      exact standsFor_pack_zero sign
    · have hleft : UnpackedFloat.add Format.binary64 (.zero s) (.finite s' m' e' hm') =
          .finite s' m' e' hm' := rfl
      rw [hsum, hunpackx, hunpacky, hleft, ← hunpacky, pack_unpack_toModel, zero_add]
      exact hy
  · rcases hy.cases with ⟨s', hunpacky, rfl⟩ | ⟨s', m', e', hm', hunpacky, -, hq⟩
    · have hright : UnpackedFloat.add Format.binary64 (.finite s m e hm) (.zero s') =
          .finite s m e hm := rfl
      rw [hsum, hunpackx, hunpacky, hright, ← hunpackx, pack_unpack_toModel, add_zero]
      exact hx
    · -- Brought to one exponent, the significands are added as integers.
      let low := min e e'
      let total := s.apply (decreaseExponent m e low).1 + s'.apply (decreaseExponent m' e' low).1
      have hadd : UnpackedFloat.add Format.binary64 (.finite s m e hm) (.finite s' m' e' hm') =
          UnpackedFloat.normalize Format.binary64 total low .positive := rfl
      have htotal : (total : ℚ) * 2 ^ low = p + q := by
        rw [hp, hq, ← apply_decreaseExponent s m (min_le_left e e'),
          ← apply_decreaseExponent s' m' (min_le_right e e'), ← add_mul, ← Int.cast_add]
      rw [hunpackx, hunpacky, hadd] at hsum
      rcases hz.cases with ⟨-, -, hnone⟩ | ⟨s'', m'', e'', hm'', hunpackz, hfits, hr⟩
      · have hnil : total = 0 := by
          rw [hnone] at htotal
          exact_mod_cast (mul_eq_zero.mp htotal).resolve_right (zpow_ne_zero _ (by norm_num))
        rw [hsum, hnil, hnone]
        exact standsFor_pack_zero .positive
      · rw [normalize_exact hm'' hfits (htotal.trans hr), ← hunpackz, pack_unpack_toModel] at hsum
        rwa [hsum]

theorem standsFor_pack {s : Sign} {m : Nat} {e : Int} (hm : 0 < m) (hfits : Fits m e) :
    StandsFor ⟨.pack (.finite s m e hm)⟩ ((s.apply m : Int) * 2 ^ e) := by
  rw [StandsFor, ofFloat_pack hm hfits, toRat?, cast_apply]

theorem StandsFor.neg (hx : StandsFor x q) : StandsFor (-x) (-q) := by
  have hneg : -x = ⟨.pack (UnpackedFloat.neg x.toModel.unpack)⟩ := rfl
  rcases hx.cases with ⟨s, hunpack, rfl⟩ | ⟨s, m, e, hm, hunpack, hfits, rfl⟩
  · rw [hneg, hunpack, neg_zero]
    exact standsFor_pack_zero (-s)
  · have hsign : ((-s).apply m : Int) = -s.apply m := by
      cases s with
      | negative => exact (Int.neg_neg m).symm
      | positive => rfl
    have hpacked := standsFor_pack (s := -s) hm hfits
    rw [hsign, Int.cast_neg, neg_mul] at hpacked
    rw [hneg, hunpack]
    exact hpacked

/-- The number by which whole numbers are multiplied. -/
theorem unpack_one : Float.exactlyRepresentablePowersOfTen[0].toModel.unpack =
    .finite .positive (2 ^ 52) (-52) (by decide) := by
  rfl

theorem StandsFor.mul_one (hx : StandsFor x q) :
    x * Float.exactlyRepresentablePowersOfTen[0] = x := by
  have hmul : x * Float.exactlyRepresentablePowersOfTen[0] =
      ⟨.pack (UnpackedFloat.mul Format.binary64 x.toModel.unpack
        Float.exactlyRepresentablePowersOfTen[0].toModel.unpack)⟩ := rfl
  rw [unpack_one] at hmul
  rcases hx.cases with ⟨s, hunpack, -⟩ | ⟨s, m, e, hm, hunpack, hfits, -⟩
  · have hsame : UnpackedFloat.mul Format.binary64 (.zero s)
        (.finite .positive (2 ^ 52) (-52) (by decide)) = .zero s := by cases s <;> rfl
    rw [hmul, hunpack, hsame, ← hunpack, pack_unpack_toModel]
  · have hsign : s * .positive = s := by cases s <;> rfl
    have hsame : UnpackedFloat.mul Format.binary64 (.finite s m e hm)
        (.finite .positive (2 ^ 52) (-52) (by decide)) = .finite s m e hm := by
      have hround := roundWithAccuracy_exact (s := s) hm hfits 52
      rw [UnpackedFloat.mul, hsign]
      exact hround
    rw [hmul, hunpack, hsame, ← hunpack, pack_unpack_toModel]

/-- Whole numbers below `2 ^ 53` are floating point numbers. -/
theorem standsFor_ofNat {n : Nat} (hn : n < 2 ^ 53) : StandsFor (Float.ofNat n) n := by
  have hword : n.toUInt64.toNat = n := by
    show n % 2 ^ 64 = n
    omega
  have hstands : StandsFor n.toUInt64.toFloat n := by
    show StandsFor ⟨.pack (UnpackedFloat.normalize Format.binary64 n.toUInt64.toNat 0 .positive)⟩ n
    rw [hword]
    rcases Nat.eq_zero_or_pos n with rfl | hpos
    · exact standsFor_pack_zero .positive
    · -- The leading bit is brought to the front of the significand.
      have hlog : n.log2 < 53 := (Nat.log2_lt (Nat.ne_of_gt hpos)).mpr hn
      have hm : 0 < n * 2 ^ (52 - n.log2) := Nat.mul_pos hpos (Nat.two_pow_pos _)
      have hfits : Fits (n * 2 ^ (52 - n.log2)) (n.log2 - 52) := by
        rw [fits_iff, log2_mul_two_pow hpos]
        omega
      have hvalue : ((n * 2 ^ (52 - n.log2) : Nat) : ℚ) * 2 ^ ((n.log2 : Int) - 52) = n := by
        have hexponent : (n.log2 : Int) - 52 = -((52 - n.log2 : Nat) : Int) := by omega
        rw [hexponent, zpow_neg, zpow_natCast]
        push_cast
        exact mul_inv_cancel_right₀ (by positivity) _
      rw [normalize_exact (s := .positive) hm hfits (by simpa [Sign.apply] using hvalue.symm)]
      have hpacked := standsFor_pack (s := .positive) hm hfits
      rw [Sign.apply, Int.cast_natCast, hvalue] at hpacked
      exact hpacked
  have hscientific : Float.ofNat n =
      n.toUInt64.toFloat * Float.exactlyRepresentablePowersOfTen[0] := by
    show Float.ofScientific n false 0 = _
    rw [Float.ofScientific, dif_pos ⟨hn, by omega⟩]
    rfl
  rwa [hscientific, hstands.mul_one]

theorem standsFor_ofInt {i : Int} (hi : i.natAbs < 2 ^ 53) : StandsFor (Float.ofInt i) i := by
  cases i with
  | ofNat n => exact_mod_cast standsFor_ofNat hi
  | negSucc n =>
      have hneg := (standsFor_ofNat (n := n + 1) hi).neg
      rw [Int.cast_negSucc]
      exact_mod_cast hneg

/-- Comparing with zero compares what the number stands for. -/
theorem StandsFor.lt_zero (hx : StandsFor x q) : x < 0.0 ↔ q < 0 := by
  have hlt : x < 0.0 ↔ UnpackedFloat.lt x.toModel.unpack (.zero .positive) = true :=
    decide_eq_true_iff
  rw [hlt]
  rcases hx.cases with ⟨s, hunpack, rfl⟩ | ⟨s, m, e, hm, hunpack, -, rfl⟩
  · rw [hunpack]
    cases s <;> simp [UnpackedFloat.lt, UnpackedFloat.compare]
  · have hsize : (0 : ℚ) < m * 2 ^ e := by positivity
    rw [hunpack]
    cases s
    · simpa [UnpackedFloat.lt, UnpackedFloat.compare, Sign.apply] using hsize
    · simpa [UnpackedFloat.lt, UnpackedFloat.compare, Sign.apply] using hsize.le

end Number

end CapsuleScript

/-! Binary numbers of 64 bits, taken apart and put together exactly. A finite number is
`± significand · 2 ^ exponent`; a positive fraction is brought to the nearest such number, and a
fraction half way between two of them to the one with the even significand. -/

namespace CapsuleScript

/-- What 64 bits stand for. -/
inductive Binary64 where
  | nan
  | infinite (negative : Bool)
  /-- The number `± significand · 2 ^ exponent`. -/
  | finite (negative : Bool) (significand : Nat) (exponent : Int)
deriving DecidableEq

namespace Binary64

/-- The least exponent of a finite number, that of the numbers next to zero. -/
def minExponent : Int := -1074

/-- The bits of positive infinity, which follow those of the largest finite number. -/
def infinityBits : Nat := 2047 * Nat.pow 2 52

/-- The number that the bits stand for: a sign, eleven bits of exponent and 52 of fraction. -/
def ofBits (bits : Nat) : Binary64 :=
  let negative := bits / Nat.pow 2 63 % 2 == 1
  let biased : Nat := bits / Nat.pow 2 52 % Nat.pow 2 11
  let fraction := bits % Nat.pow 2 52
  if biased = 2047 then
    if fraction = 0 then infinite negative else nan
  else if biased = 0 then finite negative fraction minExponent
  else finite negative (Nat.pow 2 52 + fraction) (biased + minExponent - 1)

/-- The floating point number `x`, taken apart. -/
def ofFloat (x : Float) : Binary64 := ofBits x.toBits.toNat

/-- The quotient `num / den` rounded to a whole number, a half to the even neighbour. -/
def roundHalfEven (num den : Nat) : Nat :=
  let quotient := num / den
  let rest := num % den
  if 2 * rest < den ∨ (2 * rest = den ∧ quotient % 2 = 0) then quotient else quotient + 1

/-- Whether `2 ^ e ≤ num / den`. -/
def powLe (e : Int) (num den : Nat) : Bool :=
  den * Nat.pow 2 e.toNat ≤ num * Nat.pow 2 (-e).toNat

/-- The largest `e` with `2 ^ e ≤ num / den`. -/
def logRatio (num den : Nat) : Int :=
  let guess : Int := (num.log2 : Int) - (den.log2 : Int)
  if powLe guess num den then guess else guess - 1

/-- The bits of the number nearest to `num / den`. The carry of a significand that rounds up to
`2 ^ 53` runs into the exponent, and from the largest finite number on to infinity. -/
def nearestBits (num den : Nat) : Nat :=
  if num = 0 then 0
  else
    let unit := max (logRatio num den - 52) minExponent
    let significand := roundHalfEven (num * Nat.pow 2 (-unit).toNat) (den * Nat.pow 2 unit.toNat)
    min ((unit - minExponent).toNat * Nat.pow 2 52 + significand) infinityBits

/-- The magnitude of a finite number as a fraction. -/
def fraction (significand : Nat) (exponent : Int) : Nat × Nat :=
  (significand * Nat.pow 2 exponent.toNat, Nat.pow 2 (-exponent).toNat)

/-- The floating point number with the given sign and the bits of its magnitude. -/
def toFloat (negative : Bool) (magnitude : Nat) : Float :=
  Float.ofBits (UInt64.ofNat (if negative then Nat.pow 2 63 + magnitude else magnitude))

end Binary64

end CapsuleScript

import CapsuleScript.Number.Binary64

/-! Decimal numbers `coefficient · 10 ^ exponent`: the binary number nearest to one, the shortest
one that stands for a binary number, and their positional writing. -/

namespace CapsuleScript

/-- The number `coefficient · 10 ^ exponent`. -/
structure Decimal where
  coefficient : Nat
  exponent : Int
deriving DecidableEq

namespace Decimal

/-- How many decimal digits `n` is written with. -/
def digitCount (n : Nat) : Nat := (Nat.toDigits 10 n).length

/-- The bits of the binary number nearest to `d`. Numbers far outside the range of the binary
numbers are settled by their order of magnitude. -/
def nearestBits (d : Decimal) : Nat :=
  let order := d.exponent + digitCount d.coefficient
  if d.coefficient = 0 ∨ order < -330 then 0
  else if 330 < order then Binary64.infinityBits
  else Binary64.nearestBits (d.coefficient * Nat.pow 10 d.exponent.toNat)
      (Nat.pow 10 (-d.exponent).toNat)

/-- Whether `num / den < 10 ^ k`. -/
def belowPow (num den : Nat) (k : Int) : Bool :=
  num * Nat.pow 10 (-k).toNat < den * Nat.pow 10 k.toNat

/-- The least `k` with `num / den < 10 ^ k`. The power of two below the fraction leaves only three
candidates. -/
def order (num den : Nat) : Int :=
  let guess := Binary64.logRatio num den * 30103 / 100000
  if belowPow num den guess then guess
  else if belowPow num den (guess + 1) then guess + 1
  else guess + 2

/-- A decimal of `places` places after the point, without the zeros at its end. -/
def trimPlaces (coefficient : Nat) : Nat → Decimal
  | 0 => ⟨coefficient, 0⟩
  | places + 1 =>
    if coefficient % 10 = 0 then trimPlaces (coefficient / 10) places
    else ⟨coefficient, -(places + 1 : Nat)⟩

/-- The same decimal without zeros at the end of its places after the point. -/
def trim (d : Decimal) : Decimal :=
  if 0 ≤ d.exponent then d else trimPlaces d.coefficient (-d.exponent).toNat

/-- The neighbours of `num / den` among the multiples of `10 ^ exponent`, the nearer one first; of
two that are equally near the larger. -/
def neighbours (num den : Nat) (exponent : Int) : Decimal × Decimal :=
  let scaled := num * Nat.pow 10 (-exponent).toNat
  let unit := den * Nat.pow 10 exponent.toNat
  let below := scaled / unit
  if 2 * (scaled % unit) < unit then (⟨below, exponent⟩, ⟨below + 1, exponent⟩)
  else (⟨below + 1, exponent⟩, ⟨below, exponent⟩)

/-- The decimal with the fewest digits, of at least `digits`, whose nearest binary number has the
bits `bits`, and of these the one nearest to `num / den`, which is of the order `k`. After `tries`
further digits it settles for the nearest decimal. -/
def shortestFrom (num den bits : Nat) (k : Int) (digits : Nat) : Nat → Decimal
  | 0 => (neighbours num den (k - digits)).1
  | tries + 1 =>
    let (near, far) := neighbours num den (k - digits)
    if near.nearestBits = bits then near
    else if far.nearestBits = bits then far
    else shortestFrom num den bits k (digits + 1) tries

/-- The shortest decimal that stands for a positive finite binary number. Seventeen digits always
suffice. -/
def shortest (significand : Nat) (exponent : Int) : Decimal :=
  let (num, den) := Binary64.fraction significand exponent
  (shortestFrom num den (Binary64.nearestBits num den) (order num den) 1 16).trim

/-- The decimal written with its digits in their places, never with an exponent. -/
def positional (d : Decimal) : String :=
  let digits := Nat.toDigits 10 d.coefficient
  if 0 ≤ d.exponent then String.ofList (digits ++ List.replicate d.exponent.toNat '0')
  else
    let places := (-d.exponent).toNat
    let padded := List.replicate (places + 1 - digits.length) '0' ++ digits
    let whole := padded.length - places
    String.ofList (padded.take whole ++ '.' :: padded.drop whole)

end Decimal

end CapsuleScript

import CapsuleScript.Number.Binary64

/-! Numbers as positions in strings and lists. Fractions are cut off towards zero, and a negative
position counts from the end. -/

namespace CapsuleScript

/-- The largest whole number below which every whole number is a floating point number. -/
def maxExact : Nat := Nat.pow 2 53 - 1

/-- The longest string, in bytes, that repeating a string may give. -/
def maxRepeatedBytes : Nat := Nat.pow 2 27

namespace Binary64

/-- A number cut off towards zero. There is none for the undefined number, for the infinities, for
numbers that are still negative and for those above `maxExact`. -/
def truncate? : Binary64 → Option Nat
  | .nan => none
  | .infinite _ => none
  | .finite negative significand exponent =>
    let (num, den) := fraction significand exponent
    let whole := num / den
    if negative ∧ whole ≠ 0 then none
    else if maxExact < whole then none
    else some whole

end Binary64

namespace Number

/-- A length as a number, exact up to `maxExact` and that number for longer ones. -/
def ofLength (length : Nat) : Float := Float.ofNat (min length maxExact)

/-- The position that `index` names in a sequence of `length` elements, wherever it lies. -/
def position? (index : Float) (length : Nat) : Option Nat :=
  let adjusted := if index < 0.0 then index + ofLength length else index
  (Binary64.ofFloat adjusted).truncate?

/-- The position of an element of a sequence of `length` elements. -/
def elementIndex? (index : Float) (length : Nat) : Option Nat :=
  (position? index length).filter (· < length)

/-- A position between the elements of a sequence of `length` elements; its end is one. -/
def splitOffset? (index : Float) (length : Nat) : Option Nat :=
  (position? index length).filter (· ≤ length)

/-- How often something is repeated. -/
def repeatCount? (count : Float) : Option Nat :=
  (Binary64.ofFloat count).truncate?

/-- The size of `length` bytes repeated `count` times, if it is within the limit. -/
def repeatedLength? (length count : Nat) : Option Nat :=
  if length * count ≤ maxRepeatedBytes then some (length * count) else none

end Number

end CapsuleScript

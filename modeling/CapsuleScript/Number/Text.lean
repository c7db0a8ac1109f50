import CapsuleScript.Number.Decimal

/-! The written form of numbers. A number is shown by the fewest digits that read back as the same
number, always in positional form and without a point if it is whole. Reading takes an optional
sign, digits with an optional point and an optional exponent, and the names of the infinities and of
the undefined number. -/

namespace CapsuleScript.Number

/-- The text of a number. -/
def render (x : Float) : String :=
  match Binary64.ofFloat x with
  | .nan => "NaN"
  | .infinite negative => if negative then "-inf" else "inf"
  | .finite negative significand exponent =>
    let magnitude :=
      if significand = 0 then "0" else (Decimal.shortest significand exponent).positional
    if negative then "-" ++ magnitude else magnitude

/-- The number that a row of decimal digits stands for. -/
def ofDigits (digits : List Char) : Nat :=
  digits.foldl (fun n c => 10 * n + (c.toNat - '0'.toNat)) 0

/-- The digits at the head of a text, and what follows them. -/
def takeDigits (cs : List Char) : List Char × List Char :=
  (cs.takeWhile Char.isDigit, cs.dropWhile Char.isDigit)

/-- The exponent of a written number: nothing, or a mark, an optional sign and digits. -/
def exponent? : List Char → Option Int
  | [] => some 0
  | mark :: cs =>
    if mark = 'e' ∨ mark = 'E' then
      let (negative, digits) :=
        match cs with
        | '-' :: ds => (true, ds)
        | '+' :: ds => (false, ds)
        | ds => (false, ds)
      if digits ≠ [] ∧ digits.all Char.isDigit then
        some (if negative then -(ofDigits digits : Int) else ofDigits digits)
      else none
    else none

/-- The decimal written as digits with an optional point and an optional exponent. There has to be a
digit before the exponent. -/
def decimal? (cs : List Char) : Option Decimal :=
  let (whole, rest) := takeDigits cs
  let (places, rest) :=
    match rest with
    | '.' :: ds => takeDigits ds
    | ds => ([], ds)
  if whole = [] ∧ places = [] then none
  else (exponent? rest).map fun e => ⟨ofDigits (whole ++ places), e - places.length⟩

/-- The bits of a magnitude, written as a decimal or by name in letters of either case. -/
def magnitude? (cs : List Char) : Option Nat :=
  let letters := String.ofList (cs.map Char.toLower)
  if letters = "inf" ∨ letters = "infinity" then some Binary64.infinityBits
  else if letters = "nan" then some (Binary64.infinityBits + Nat.pow 2 51)
  else (decimal? cs).map Decimal.nearestBits

/-- The number that a text stands for. -/
def ofChars? (cs : List Char) : Option Float :=
  match cs with
  | '-' :: ds => (magnitude? ds).map (Binary64.toFloat true)
  | '+' :: ds => (magnitude? ds).map (Binary64.toFloat false)
  | ds => (magnitude? ds).map (Binary64.toFloat false)

end CapsuleScript.Number

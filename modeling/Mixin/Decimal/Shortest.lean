import Mixin.Decimal.Binary64

/-!
# The shortest text of a number

A number is written with the fewest decimal digits that denote it, and among texts with that many
digits with those nearest to it. Numbers from a ten-thousandth up to, but without, ten to the
sixteenth are written with a decimal point and at least one digit behind it, all others with an
exponent.
-/

namespace Mixin.Binary64

/-- How many digits the whole part of `num / den` has; below one, zero less the number of zeros
behind the point. The fraction is positive, less than ten to this power, and not less than a tenth
of that. -/
def decimalPoint (num den : Nat) : Int :=
  if den ≤ num then (Nat.toDigits 10 (num / den)).length
  else
    let zeros := (Nat.toDigits 10 (den / num)).length - 1
    if num * powerOfTen zeros < den then -(zeros : Int) else 1 - (zeros : Int)

/-- The decimal with `count` digits nearest to a number among those that denote it, the larger one
if two are equally near: its digits as a whole number, and the power of ten by which they are
multiplied. -/
def nearestDecimal? (b : Binary64) (count : Nat) : Option (Nat × Int) :=
  let ratio := b.toRatio
  let exponent := decimalPoint ratio.1 ratio.2 - count
  let num := ratio.1 * powerOfTen (-exponent).toNat
  let den := ratio.2 * powerOfTen exponent.toNat
  let below := num / den
  let above := below + 1
  let nearBelow := ofDecimal below exponent = b
  let nearAbove := ofDecimal above exponent = b
  if nearBelow ∧ (¬ nearAbove ∨ 2 * (num % den) < den) then some (below, exponent)
  else if nearAbove then some (above, exponent)
  else none

/-- The decimal with the fewest digits that denotes a finite number other than zero, the nearest of
them. Seventeen digits always suffice. -/
def shortest (b : Binary64) : Nat × Int :=
  ((List.range 17).findSome? fun i => b.nearestDecimal? (i + 1)).getD (0, 0)

/-- A decimal by its digits, without zeros at their end, and the place of the point in front of
which they begin. -/
def trimmed (decimal : Nat × Int) : List Char × Int :=
  let digits := Nat.toDigits 10 decimal.1
  ((digits.reverse.dropWhile (· = '0')).reverse, decimal.2 + digits.length)

def render (b : Binary64) : String :=
  if b.isInfinite then "inf"
  else if b = zero then "0.0"
  else
    let (digits, point) := trimmed b.shortest
    let zeros (n : Int) : List Char := List.replicate n.toNat '0'
    if -3 ≤ point ∧ point ≤ 16 then
      let whole :=
        if point ≤ 0 then ['0'] else digits.take point.toNat ++ zeros (point - digits.length)
      let fraction := zeros (-point) ++ digits.drop point.toNat
      String.ofList (whole ++ ['.'] ++ if fraction.isEmpty then ['0'] else fraction)
    else
      let fraction := digits.drop 1
      let mantissa := digits.take 1 ++ if fraction.isEmpty then [] else '.' :: fraction
      String.ofList mantissa ++ "e" ++ toString (point - 1)

end Mixin.Binary64

/-!
# Numbers with a fraction

A literal with a fraction denotes the nearest number with a significand of 53 bits (`Binary64`), of
two equally near ones the one with an even significand. Values too large for a finite number denote
infinity. All arithmetic is exact, on natural numbers.
-/

namespace Mixin

/-- A number that is not negative, in the 64 bits of the binary interchange format. -/
structure Binary64 where
  bits : UInt64
  deriving DecidableEq, Repr, Inhabited

/-- The whole number nearest to `num / den`, an even one if two are equally near. -/
def divNearestEven (num den : Nat) : Nat :=
  let floor := num / den
  let twice := 2 * (num % den)
  if twice < den ∨ (twice = den ∧ floor % 2 = 0) then floor else floor + 1

def powerOfTwo (n : Nat) : Nat := Nat.pow 2 n

def powerOfTen (n : Nat) : Nat := Nat.pow 10 n

namespace Binary64

/-- The exponent field of infinity. -/
def infinityField : Nat := 2047

def infinity : Binary64 := ⟨(infinityField * powerOfTwo 52).toUInt64⟩

def zero : Binary64 := ⟨0⟩

/-- The fraction `num / den` as the nearest number, for positive `num` and `den`. -/
def ofRatio (num den : Nat) : Binary64 :=
  let scaled (q : Int) : Nat × Nat := (num * powerOfTwo (-q).toNat, den * powerOfTwo q.toNat)
  let guess : Int := (Nat.log2 num : Int) - (Nat.log2 den : Int) - 52
  let fits (q : Int) : Bool := (scaled q).2 * powerOfTwo 52 ≤ (scaled q).1
  let q := max (if fits guess then guess else guess - 1) (-1074)
  let significand := divNearestEven (scaled q).1 (scaled q).2
  let field := (q + 1075).toNat
  let word :=
    if significand < powerOfTwo 52 then significand
    else field * powerOfTwo 52 + (significand - powerOfTwo 52)
  if word < infinityField * powerOfTwo 52 then ⟨word.toUInt64⟩ else infinity

/-- The number nearest to `digits * 10 ^ exponent`. -/
def ofDecimal (digits : Nat) (exponent : Int) : Binary64 :=
  let magnitude : Int := ((Nat.toDigits 10 digits).length : Int) + exponent
  if digits = 0 ∨ magnitude < -330 then zero
  else if 310 < magnitude then infinity
  else ofRatio (digits * powerOfTen exponent.toNat) (powerOfTen (-exponent).toNat)

def isInfinite (b : Binary64) : Bool := infinityField * powerOfTwo 52 ≤ b.bits.toNat

/-- A finite number as a fraction of natural numbers. -/
def toRatio (b : Binary64) : Nat × Nat :=
  let field := b.bits.toNat / powerOfTwo 52
  let fraction := b.bits.toNat % powerOfTwo 52
  let significand := if field = 0 then fraction else powerOfTwo 52 + fraction
  let q : Int := (max field 1 : Nat) - 1075
  (significand * powerOfTwo q.toNat, powerOfTwo (-q).toNat)

end Binary64

def digitsValue (cs : List Char) : Nat :=
  cs.foldl (fun n c => 10 * n + (c.toNat - '0'.toNat)) 0

/-- The number denoted by a literal with a fraction: digits, a point, digits, and perhaps an
exponent. -/
def Binary64.ofLiteral (literal : String) : Binary64 :=
  let cs := literal.toList
  let whole := cs.takeWhile Char.isDigit
  let rest := (cs.dropWhile Char.isDigit).drop 1
  let fraction := rest.takeWhile Char.isDigit
  let scale := (rest.dropWhile Char.isDigit).drop 1
  let size : Int := digitsValue (scale.filter Char.isDigit)
  let exponent := if scale.head? = some '-' then -size else size
  ofDecimal (digitsValue (whole ++ fraction)) (exponent - fraction.length)

end Mixin

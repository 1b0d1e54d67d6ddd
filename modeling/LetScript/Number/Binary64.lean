import LetScript.Number.Numeral

/-!
# Double-precision numbers

A double-precision number is kept as its sign and the other 63 bits of its encoding, read as one
number, the magnitude. Magnitudes are ordered like the numbers they encode. A magnitude below
`infinity` encodes a significand and a power of two, and `Binary64.ofNumeral` gives the number
nearest to a numeral, taking the even significand of two that are equally near. All arithmetic is
exact arithmetic on natural numbers.
-/

namespace LetScript

/-- A double-precision number. -/
structure Binary64 where
  negative : Bool
  magnitude : Nat
  deriving DecidableEq

namespace Binary64

/-- The least significand with 53 bits. Magnitudes below it encode themselves, as significands of
the least power of two. -/
def leastNormal : Nat := Nat.pow 2 52

/-- One, counted in the least positive number, `2 ^ (-1074)`. -/
def one : Nat := Nat.pow 2 1074

/-- The magnitude of infinity. Magnitudes above it encode the undefined number. -/
def infinity : Nat := 2047 * leastNormal

/-- The magnitude of the undefined number. -/
def undefined : Nat := infinity + Nat.pow 2 51

/-- The number is infinite, of either sign. -/
def isInfinite (x : Binary64) : Bool := x.magnitude == infinity

/-- The 64 bits of the encoding, the sign first, read as one number. -/
def bits (x : Binary64) : Nat := (if x.negative then Nat.pow 2 63 else 0) + x.magnitude

/-- The significand of a finite number. -/
def significand (x : Binary64) : Nat :=
  if x.magnitude < leastNormal then x.magnitude else leastNormal + x.magnitude % leastNormal

/-- The power of two that scales the significand of a finite number, counted from the least
one, `2 ^ (-1074)`. -/
def scale (x : Binary64) : Nat := x.magnitude / leastNormal - 1

/-- The quotient rounded to the nearest natural number, and to the even one of two that are
equally near. -/
def roundDiv (numerator denominator : Nat) : Nat :=
  let quotient := numerator / denominator
  let twice := 2 * (numerator % denominator)
  if denominator < twice || (twice == denominator && quotient % 2 == 1) then quotient + 1
  else quotient

/-- The power of two, counted from `2 ^ (-1074)`, that scales the significand of the number
nearest to a positive quotient. The significand of a number that is not too small has 53 bits. -/
def quotientScale (numerator denominator : Nat) : Nat :=
  let scaled := numerator * one / denominator
  scaled.log2 - 52

/-- The magnitude of the number nearest to a positive quotient. -/
def ofQuotient (numerator denominator : Nat) : Nat :=
  let scale := quotientScale numerator denominator
  let significand := roundDiv (numerator * one) (denominator * Nat.pow 2 scale)
  min (scale * leastNormal + significand) infinity

/-- The magnitude of the number nearest to a decimal number. The first two tests keep the powers
of ten small: a positive number with an exponent above 400 is infinite, and one with a negative
exponent is below half the least positive number if its digits have too few bits for it. -/
def ofDecimal (value : Decimal) : Nat :=
  if value.digits = 0 then 0
  else
    match value.exponent with
    | .ofNat power =>
      if 400 < power then infinity else ofQuotient (value.digits * Nat.pow 10 power) 1
    | .negSucc power =>
      if value.digits.log2 + 1100 ≤ 3 * (power + 1) then 0
      else ofQuotient value.digits (Nat.pow 10 (power + 1))

/-- The number nearest to a numeral. -/
def ofNumeral (numeral : Numeral) : Binary64 where
  negative := numeral.negative
  magnitude :=
    match numeral.magnitude with
    | .decimal value => ofDecimal value
    | .infinity => infinity
    | .undefined => undefined

/-- Read a text as a number. -/
def read? (text : String) : Option Binary64 := (Numeral.read? text).map ofNumeral

end Binary64

end LetScript

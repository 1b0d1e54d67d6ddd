import LetScript.Number.Binary64

/-!
# The shortest text of a number

A double-precision number is written with the fewest significant digits that read back as the
same number. For each number of digits only the two decimal numbers around the value need a test:
if any decimal number with that many digits reads back, one of these two does. The text never has
an exponent.
-/

namespace LetScript.Binary64

/-- The positive quotient `numerator / denominator` is less than `10 ^ power`. -/
def ltTenPow (numerator denominator : Nat) : Int → Bool
  | .ofNat power => numerator < denominator * Nat.pow 10 power
  | .negSucc power => numerator * Nat.pow 10 (power + 1) < denominator

/-- The first of the powers `start`, `start + 1`, ... that exceeds a quotient, among `tries` of
them. -/
def firstPowAbove (numerator denominator : Nat) (start : Int) : Nat → Int
  | 0 => start
  | tries + 1 =>
    if ltTenPow numerator denominator start then start
    else firstPowAbove numerator denominator (start + 1) tries

/-- The number of digits before the point of a positive quotient, which is negative or zero if
the first digits after the point are zeros. The binary logarithms of both numbers give a lower
bound, from which three steps suffice. -/
def integralWidth (numerator denominator : Nat) : Int :=
  let power : Int := numerator.log2 - denominator.log2 - 1
  firstPowAbove numerator denominator (power * 30103 / 100000) 3

/-- The interval of the real numbers that are read as one positive finite number. Its bounds and
the number itself are given over a common denominator. -/
structure Interval where
  low : Nat
  value : Nat
  high : Nat
  denominator : Nat
  closed : Bool

/-- The interval of a positive finite number. It reaches half way to the neighbours, and the
lower neighbour of a power of two is nearer than the upper one. The ends belong to it if the
significand is even. -/
def interval (x : Binary64) : Interval :=
  let unit := Nat.pow 2 x.scale
  let value := 4 * x.significand
  let below := if x.significand = leastNormal && 0 < x.scale then 1 else 2
  { low := (value - below) * unit
    value := value * unit
    high := (value + 2) * unit
    denominator := 4 * one
    closed := x.significand % 2 == 0 }

/-- The decimal number with `count` significant digits that is nearest to the number and is read
back as it, if there is one. Of two that are equally near the greater is taken. -/
def candidate? (i : Interval) (width : Int) (count : Nat) : Option Decimal :=
  let exponent := width - count
  -- Scale by a power of ten so that one unit of the last digit is `unit`.
  let (grow, unit) : Nat × Nat := match exponent with
    | .ofNat power => (1, i.denominator * Nat.pow 10 power)
    | .negSucc power => (Nat.pow 10 (power + 1), i.denominator)
  let value := i.value * grow
  let lower := value / unit
  let isLower := if i.closed then i.low * grow ≤ lower * unit else i.low * grow < lower * unit
  let isUpper :=
    if i.closed then (lower + 1) * unit ≤ i.high * grow else (lower + 1) * unit < i.high * grow
  let upperNearer := unit ≤ 2 * (value - lower * unit)
  if isUpper && (!isLower || upperNearer) then some ⟨lower + 1, exponent⟩
  else if isLower then some ⟨lower, exponent⟩
  else none

/-- The first candidate with `count`, `count + 1`, ... digits, among `tries` of them. -/
def firstCandidate (i : Interval) (width : Int) (count : Nat) : Nat → Option Decimal
  | 0 => none
  | tries + 1 =>
    match candidate? i width count with
    | some decimal => some decimal
    | none => firstCandidate i width (count + 1) tries

/-- The shortest decimal number that reads back as a positive finite number. Seventeen digits
always suffice. -/
def shortest (x : Binary64) : Decimal :=
  let i := x.interval
  (firstCandidate i (integralWidth i.value i.denominator) 1 17).getD ⟨0, 0⟩

/-- Write a decimal number without an exponent and without zeros after the last digit of its
fraction. -/
def positional (value : Decimal) : String :=
  let digits := Nat.toDigits 10 value.digits
  match value.exponent with
  | .ofNat power => String.ofList (digits ++ List.replicate power '0')
  | .negSucc power =>
    let places := power + 1
    let filled := List.replicate (places + 1 - digits.length) '0' ++ digits
    let whole := filled.take (filled.length - places)
    let fraction :=
      ((filled.drop (filled.length - places)).reverse.dropWhile (· == '0')).reverse
    if fraction.isEmpty then String.ofList whole
    else String.ofList (whole ++ '.' :: fraction)

/-- The text of a number: its shortest digits, or the name of infinity or of the undefined
number. The undefined number has no sign, while zero keeps its own. -/
def toText (x : Binary64) : String :=
  if infinity < x.magnitude then "NaN"
  else
    let body :=
      if x.magnitude = infinity then "inf"
      else if x.magnitude = 0 then "0"
      else positional x.shortest
    if x.negative then "-" ++ body else body

end LetScript.Binary64

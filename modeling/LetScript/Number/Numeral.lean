/-!
# Numerals

A numeral is the text of a number: an optional sign followed by decimal digits with an optional
fraction and exponent, or by the name of infinity or of the undefined number. `Numeral.read?`
accepts exactly these texts. Digits are required before or after the point, so `5.` and `.5` are
numerals while a lone point is not.
-/

namespace LetScript

/-- The number `digits * 10 ^ exponent`. -/
structure Decimal where
  digits : Nat
  exponent : Int
  deriving DecidableEq

/-- The value of a numeral apart from its sign. -/
inductive Numeral.Magnitude where
  | decimal (value : Decimal)
  | infinity
  | undefined

/-- What a numeral denotes. -/
structure Numeral where
  negative : Bool
  magnitude : Numeral.Magnitude

namespace Numeral

/-- The value of a decimal digit. -/
def digitValue (c : Char) : Nat := c.toNat - '0'.toNat

/-- The number written by a sequence of decimal digits. -/
def digitsValue (digits : List Char) : Nat :=
  digits.foldl (fun n c => 10 * n + digitValue c) 0

/-- The number written by the digits of an exponent. Digits that follow once 65536 is reached
are read and ignored: such an exponent is far outside the range of every number format. -/
def exponentValue (digits : List Char) : Nat :=
  digits.foldl (fun n c => if n < 65536 then 10 * n + digitValue c else n) 0

/-- The digits of an exponent after its sign. At least one digit is required. -/
def exponentDigits? (text : List Char) : Option Nat :=
  if !text.isEmpty && text.all Char.isDigit then some (exponentValue text) else none

/-- The exponent after its mark: an optional sign and digits. -/
def signedExponent? : List Char → Option Int
  | '-' :: text => (exponentDigits? text).map fun n => -(n : Int)
  | '+' :: text => (exponentDigits? text).map Int.ofNat
  | text => (exponentDigits? text).map Int.ofNat

/-- The optional exponent at the end of a numeral. -/
def exponent? : List Char → Option Int
  | [] => some 0
  | 'e' :: text => signedExponent? text
  | 'E' :: text => signedExponent? text
  | _ :: _ => none

/-- The digits of the fraction, if a point comes next, and the text that follows them. -/
def splitFraction : List Char → List Char × List Char
  | '.' :: text => text.span Char.isDigit
  | text => ([], text)

/-- A number without a sign, written in decimal digits. -/
def decimal? (text : List Char) : Option Decimal :=
  let (whole, afterWhole) := text.span Char.isDigit
  let (fraction, afterFraction) := splitFraction afterWhole
  if whole.isEmpty && fraction.isEmpty then none
  else
    (exponent? afterFraction).map fun exponent =>
      ⟨digitsValue (whole ++ fraction), exponent - fraction.length⟩

/-- A number without a sign. The names of infinity and of the undefined number are accepted in
upper and lower case. -/
def magnitude? (text : List Char) : Option Magnitude :=
  match decimal? text with
  | some value => some (.decimal value)
  | none =>
    match String.ofList (text.map Char.toLower) with
    | "inf" => some .infinity
    | "infinity" => some .infinity
    | "nan" => some .undefined
    | _ => none

/-- Read a whole text as a numeral. -/
def read? (text : String) : Option Numeral :=
  match text.toList with
  | '-' :: rest => (magnitude? rest).map (⟨true, ·⟩)
  | '+' :: rest => (magnitude? rest).map (⟨false, ·⟩)
  | rest => (magnitude? rest).map (⟨false, ·⟩)

end Numeral

end LetScript

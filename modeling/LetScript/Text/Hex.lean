/-!
# Hexadecimal numbers

The escapes of quoted texts, string literals and mangled names write code points in lower-case
hexadecimal digits.
-/

namespace LetScript.Text

/-- The lower-case hexadecimal digits of a number, without leading zeros. -/
def hex (n : Nat) : List Char := Nat.toDigits 16 n

/-- The hexadecimal digits of a number, filled up with zeros on the left to `width` digits. -/
def hexFilled (width n : Nat) : List Char :=
  List.replicate (width - (hex n).length) '0' ++ hex n

end LetScript.Text

import LetScript.Text.Hex

/-!
# String literals in the generated code

A string literal stands between double quotes. The quote, the backslash, the control characters
and the two line separators of Unicode are escaped, so a literal never runs over the end of its
line.
-/

namespace LetScript.Script

/-- An escape with the code point in four hexadecimal digits. -/
def unicodeEscape (c : Char) : List Char := '\\' :: 'u' :: Text.hexFilled 4 c.toNat

/-- One character inside a string literal. -/
def literalChar (c : Char) : List Char :=
  match c with
  | '"' => ['\\', '"']
  | '\\' => ['\\', '\\']
  | '\n' => ['\\', 'n']
  | '\r' => ['\\', 'r']
  | '\t' => ['\\', 't']
  | '\u2028' => unicodeEscape c
  | '\u2029' => unicodeEscape c
  | c => if c.toNat < 0x20 then unicodeEscape c else [c]

/-- The string literal for a text. -/
def stringLiteral (text : String) : String :=
  String.ofList ('"' :: text.toList.flatMap literalChar ++ ['"'])

end LetScript.Script

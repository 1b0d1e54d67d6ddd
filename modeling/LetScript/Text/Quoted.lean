import LetScript.Text.Hex
import LetScript.Text.Printable

/-!
# Texts in quotes

`quoted` writes a text between double quotes so that every character can be seen. The quote, the
backslash and the common control characters get a short escape, any other character that is not
printable is written as its code point in hexadecimal digits.
-/

namespace LetScript.Text

/-- One character inside a quoted text. -/
def quotedChar (c : Char) : List Char :=
  match c with
  | '"' => ['\\', '"']
  | '\\' => ['\\', '\\']
  | '\n' => ['\\', 'n']
  | '\r' => ['\\', 'r']
  | '\t' => ['\\', 't']
  | '\x00' => ['\\', '0']
  | c => if isPrintable c then [c] else "\\u\x7b".toList ++ hex c.toNat ++ ['\x7d']

/-- A text between double quotes, with escapes. -/
def quoted (text : String) : String :=
  String.ofList ('"' :: text.toList.flatMap quotedChar ++ ['"'])

end LetScript.Text

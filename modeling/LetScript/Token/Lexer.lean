import LetScript.Text.Blank
import LetScript.Text.Bytes
import LetScript.Token.Basic

/-!
# Reading tokens

`Token.read` cuts a source text into tokens. At each place `Lexeme.scan` looks at the first
character and says how many of the following characters belong to the same token, which makes a
token at least one character long. Every text is cut: what fits no other kind becomes an invalid
token that carries its diagnostic.
-/

namespace LetScript

/-- What stands at the front of a text: the kind of token, the number of characters it has after
its first one, whether it is written in brackets, and why it is invalid, if it is. -/
structure Lexeme where
  kind : Kind
  tail : Nat
  quoted : Bool := false
  cause : Option Cause := none
  deriving DecidableEq

namespace Lexeme

/-- A character that may start a name. -/
def isNameStart (c : Char) : Bool := c.isAlpha || c == '$' || c == '_'

/-- A character that may continue a name. -/
def isNamePart (c : Char) : Bool := c.isAlphanum || c == '$' || c == '_'

/-- The number of characters at the front of a text that belong to a class. -/
def runLength (isMember : Char → Bool) (text : List Char) : Nat :=
  (text.takeWhile isMember).length

/-- The length of a fraction, a point and at least one digit, at the front of a text. -/
def fractionLength : List Char → Nat
  | '.' :: text =>
    match runLength Char.isDigit text with
    | 0 => 0
    | digits + 1 => digits + 2
  | _ => 0

/-- The length of a run of digits with `lead` characters before it, which counts only if there is
a digit. -/
def digitsAfter (lead : Nat) (text : List Char) : Nat :=
  match runLength Char.isDigit text with
  | 0 => 0
  | digits + 1 => lead + (digits + 1)

/-- The length of an exponent after its mark: an optional sign and at least one digit. The mark
is counted in. -/
def signedLength : List Char → Nat
  | '+' :: text => digitsAfter 2 text
  | '-' :: text => digitsAfter 2 text
  | text => digitsAfter 1 text

/-- The length of an exponent, a mark, an optional sign and at least one digit, at the front of a
text. -/
def exponentLength : List Char → Nat
  | 'e' :: text => signedLength text
  | 'E' :: text => signedLength text
  | _ => 0

/-- The length of the rest of a number after its first digit: more digits, a fraction and an
exponent. -/
def numberLength (text : List Char) : Nat :=
  let whole := runLength Char.isDigit text
  let fraction := fractionLength (text.drop whole)
  whole + fraction + exponentLength (text.drop (whole + fraction))

/-- The length of a quoted identifier after its opening bracket, and whether its closing bracket
was found. A bracket inside the name follows a backslash. A backslash before anything else ends
the scan. `passed` characters have been passed already. -/
def bracketedLength (passed : Nat) : List Char → Nat × Bool
  | [] => (passed, false)
  | ']' :: _ => (passed + 1, true)
  | '\\' :: ']' :: text => bracketedLength (passed + 2) text
  | '\\' :: _ => (passed + 1, false)
  | _ :: text => bracketedLength (passed + 1) text

/-- A valid token that is not written in brackets. -/
def plain (kind : Kind) (tail : Nat) : Lexeme := { kind, tail }

/-- An invalid token. -/
def faulty (cause : Cause) (tail : Nat) : Lexeme :=
  { kind := .invalid, tail, cause := some cause }

/-- A name or a keyword that starts with `c`. -/
def scanWord (c : Char) (text : List Char) : Lexeme :=
  let tail := runLength isNamePart text
  plain ((Kind.keyword? (String.ofList (c :: text.take tail))).getD .identifier) tail

/-- A quoted identifier, after its opening bracket. It has to be closed and to hold a name. -/
def scanBracketed (text : List Char) : Lexeme :=
  match bracketedLength 0 text with
  | (tail, false) => { faulty .unterminatedQuotedIdentifier tail with quoted := true }
  | (tail, true) =>
    if tail ≤ 1 then { faulty .emptyQuotedIdentifier tail with quoted := true }
    else { plain .identifier tail with quoted := true }

/-- A token that starts with a punctuation character. -/
def scanSymbol (c : Char) (text : List Char) : Lexeme :=
  match c, text with
  | '(', _ => plain .openParen 0
  | ')', _ => plain .closeParen 0
  | '\x7b', _ => plain .openCurly 0
  | '\x7d', _ => plain .closeCurly 0
  | '*', _ => plain .star 0
  | '/', _ => plain .slash 0
  | '+', _ => plain .plus 0
  | '-', _ => plain .dash 0
  | ';', _ => plain .semicolon 0
  | '.', '.' :: '.' :: _ => plain .ellipsis 2
  | '.', _ => faulty .unrecognisedDot 0
  | '=', '>' :: _ => plain .arrow 1
  | '=', _ => plain .equals 0
  | '^', '^' :: _ => plain .doubleCaret 1
  | '[', text => scanBracketed text
  | _, _ => faulty .unrecognisedSymbol 0

/-- What stands at the front of a text that starts with `c` and goes on with `text`. -/
def scan (c : Char) (text : List Char) : Lexeme :=
  if Text.isBlank c then plain .blank (runLength Text.isBlank text)
  else if c.isDigit then plain .number (numberLength text)
  else if isNameStart c then scanWord c text
  else scanSymbol c text

/-- The value of a token with the given text. A quoted identifier stands for the name between its
brackets, without the backslashes. -/
def value (lexeme : Lexeme) (text : List Char) : String :=
  if lexeme.kind = .identifier ∧ lexeme.quoted then
    String.ofList ((text.tail.dropLast).filter (· ≠ '\\'))
  else String.ofList text

/-- The token with the given text at a position. -/
def toToken (lexeme : Lexeme) (text : List Char) (start : Position) : Token where
  kind := lexeme.kind
  value := lexeme.value text
  span := ⟨start, { start with offset := start.offset + Text.byteLength text }⟩
  quoted := lexeme.quoted
  diagnostic := lexeme.cause.map (⟨·, start⟩)

end Lexeme

namespace Token

/-- Cut a text that starts at a position into tokens, after those already read. -/
def readFrom (start : Position) (tokens : Array Token) (text : List Char) : Array Token :=
  match text with
  | [] => tokens.push (.endOfInput start)
  | c :: text =>
    let lexeme := Lexeme.scan c text
    let token := lexeme.toToken (c :: text.take lexeme.tail) start
    readFrom token.span.stop (tokens.push token) (text.drop lexeme.tail)
termination_by text.length

/-- Cut a source text into tokens. The last one is the end of the input. -/
def read (source : String) (file : String) : Array Token :=
  readFrom ⟨file, 0⟩ #[] source.toList

/-- The file name of a source text that was not read from a file. -/
def anonymousFile : String := "shell"

end Token

end LetScript

import LetScript.Diagnostic.Basic

/-!
# Tokens

A token is a piece of a source text with its kind, its value and its span. The value is the text
of the piece, except that a quoted identifier stands for the name between its brackets. Blank
pieces are tokens too, so the tokens of a text cover all of it.
-/

namespace LetScript

/-- The kinds of tokens. -/
inductive Kind where
  | identifier
  | number
  | equals
  | arrow
  | plus
  | dash
  | star
  | slash
  | semicolon
  | ellipsis
  | openParen
  | closeParen
  | openCurly
  | closeCurly
  | doubleCaret
  | letWord
  | fnWord
  | inWord
  | endOfInput
  | blank
  | invalid
  deriving DecidableEq

namespace Kind

/-- Every kind of token. -/
def all : List Kind :=
  [identifier, number, equals, arrow, plus, dash, star, slash, semicolon, ellipsis, openParen,
    closeParen, openCurly, closeCurly, doubleCaret, letWord, fnWord, inWord, endOfInput, blank,
    invalid]

/-- The name of a kind of token, as messages use it. -/
def name : Kind → String
  | identifier => "Identifier"
  | number => "Number"
  | equals => "Equals"
  | arrow => "Arrow"
  | plus => "Plus"
  | dash => "Dash"
  | star => "Star"
  | slash => "Slash"
  | semicolon => "Semicolon"
  | ellipsis => "Ellipsis"
  | openParen => "OpenParen"
  | closeParen => "CloseParen"
  | openCurly => "OpenCurly"
  | closeCurly => "CloseCurly"
  | doubleCaret => "Meta"
  | letWord => "Let"
  | fnWord => "Fn"
  | inWord => "In"
  | endOfInput => "EOF"
  | blank => "Whitespace"
  | invalid => "Error"

/-- The kind of a keyword. -/
def keyword? : String → Option Kind
  | "let" => some letWord
  | "fn" => some fnWord
  | "in" => some inWord
  | _ => none

end Kind

/-- A token of a source text. -/
structure Token where
  kind : Kind
  value : String
  span : Span
  /-- The token was written between brackets. -/
  quoted : Bool := false
  /-- Why the token is invalid, if it is. -/
  diagnostic : Option Diagnostic := none
  deriving DecidableEq

namespace Token

/-- The token that closes a token sequence at a position. -/
def endOfInput (position : Position) : Token :=
  { kind := .endOfInput, value := "EOF", span := .empty position }

/-- The kind and value of a token, on lines of their own. -/
def toText (token : Token) : String :=
  "Token \x7b\nkind: " ++ token.kind.name ++ ",\nvalue: " ++ token.value ++ "\x7d"

/-- A token on one line: its kind, with the value of a name or number in brackets, the text and
message of an invalid token, or the text of a blank one. -/
def summary (token : Token) : String :=
  let details :=
    if token.kind = .identifier ∨ token.kind = .number then
      if token.quoted then "[" ++ token.value ++ "]" else "(" ++ token.value ++ ")"
    else
      match token.diagnostic with
      | some diagnostic => "(" ++ Text.quoted token.value ++ ": " ++ diagnostic.message ++ ")"
      | none => if token.kind = .blank then "(" ++ Text.quoted token.value ++ ")" else "()"
  token.kind.name ++ " " ++ details

end Token

end LetScript

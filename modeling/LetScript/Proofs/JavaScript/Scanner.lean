import LetScript.Number.Binary64
import LetScript.Script.Basic

/-!
# Tokens of JavaScript

A scanner for the part of JavaScript that generated code uses. It goes through a text one character
at a time, and its mode says what has been read of the current token. A token ends where the next
character cannot belong to it. So `--`, `//` and the other combinations of operators that JavaScript
reads as one token are refused, and so are a name directly after a number, a number with a leading
zero, a line that ends after `return` or `throw`, and a string literal that runs over the end of its
line.
-/

namespace LetScript.JavaScript

open Script (Operator)

/-- The words with which a function, a statement or a new object begins. -/
inductive Keyword where
  | function
  | var
  | throw
  | return
  | new
  deriving DecidableEq

/-- A token of JavaScript. -/
inductive Token where
  | keyword (keyword : Keyword)
  /-- The name of a variable. -/
  | name (name : String)
  /-- A point and the name of a property. -/
  | property (name : String)
  | number (value : Binary64)
  | string (text : String)
  | operator (operator : Operator)
  /-- A bracket, a comma, a semicolon or an equals sign. -/
  | mark (mark : Char)
  deriving DecidableEq

/-- A character that may start a name. -/
def isNameStart (c : Char) : Bool := c.isAlpha || c == '_' || c == '$'

/-- A character that may continue a name. -/
def isNamePart (c : Char) : Bool := c.isAlphanum || c == '_' || c == '$'

/-- The words with which a function, a statement or a new object begins. -/
def keywords : List (List Char × Keyword) :=
  [("function".toList, .function), ("var".toList, .var), ("throw".toList, .throw),
    ("return".toList, .return), ("new".toList, .new)]

/-- The other words that cannot be names of variables. -/
def reserved : List (List Char) :=
  ["arguments", "await", "break", "case", "catch", "class", "const", "continue", "debugger",
    "default", "delete", "do", "else", "enum", "eval", "export", "extends", "false", "finally",
    "for", "if", "implements", "import", "in", "instanceof", "interface", "let", "null", "package",
    "private", "protected", "public", "static", "super", "switch", "this", "true", "try", "typeof",
    "void", "while", "with", "yield"].map String.toList

/-- The token of a word. -/
def Token.ofWord? (word : List Char) : Option Token :=
  match keywords.lookup word with
  | some found => some (.keyword found)
  | none => if word ∈ reserved then none else some (.name (String.ofList word))

/-- The number with some digits before the point and some after it, rounded to the nearest. -/
def Token.ofDigits (whole fraction : List Char) : Token :=
  .number ⟨false, Binary64.ofDecimal
    ⟨Numeral.digitsValue (whole ++ fraction), -(fraction.length : Int)⟩⟩

/-- A line must not end after the token. -/
def Token.isRestricted : Token → Bool
  | keyword .throw => true
  | keyword .return => true
  | _ => false

/-- The characters of operators, with what they stand for. -/
def operators : List (Char × Token) :=
  [('+', .operator .plus), ('-', .operator .minus), ('*', .operator .times),
    ('/', .operator .divide), ('=', .mark '=')]

/-- The characters that are tokens on their own, whatever follows. -/
def marks : List Char := ['(', ')', '[', ']', '\x7b', '\x7d', ',', ';']

/-- The two characters together start a longer operator or a comment. -/
def joins (operator next : Char) : Bool :=
  next == '=' || next == operator || (operator == '/' && next == '*') ||
    (operator == '=' && next == '>')

/-- The value of a hexadecimal digit. -/
def hexValue? (c : Char) : Option Nat :=
  ("0123456789abcdef".toList.idxOf? c).or ("0123456789ABCDEF".toList.idxOf? c)

/-- The character with a code point. -/
def charOf? (code : Nat) : Option Char :=
  if code.isValidChar then some (Char.ofNat code) else none

/-- What a scanner has read of the current token. -/
inductive Mode where
  /-- Between tokens. In a restricted place the line must not end. -/
  | blank (restricted : Bool)
  /-- Directly after an operator. -/
  | operator (operator : Char)
  | word (text : List Char)
  /-- Directly after a point. -/
  | point
  | property (text : List Char)
  /-- In the digits before the point. -/
  | whole (digits : List Char)
  /-- In the digits after the point. -/
  | fraction (whole fraction : List Char)
  | string (text : List Char)
  /-- After a backslash in a string. -/
  | escape (text : List Char)
  /-- In the four digits of a code point, after some digits with a value. -/
  | unicode (text : List Char) (count value : Nat)

namespace Mode

/-- Between tokens. -/
abbrev idle : Mode := .blank false

/-- Start a token between other tokens. -/
def start (c : Char) : Option (List Token × Mode) :=
  if isNameStart c then some ([], .word [c])
  else if c.isDigit then some ([], .whole [c])
  else if c = '"' then some ([], .string [])
  else if c = '.' then some ([], .point)
  else if c ∈ marks then some ([.mark c], idle)
  else (operators.lookup c).map fun token => ([token], .operator c)

/-- Skip a blank or the end of a line, or start a token. -/
def next (restricted : Bool) (c : Char) : Option (List Token × Mode) :=
  if c = ' ' then some ([], .blank restricted)
  else if c = '\n' then if restricted then none else some ([], idle)
  else start c

/-- End a token at a character that does not belong to it. -/
def close (token : Token) (c : Char) : Option (List Token × Mode) :=
  (next token.isRestricted c).map fun (tokens, mode) => (token :: tokens, mode)

/-- Read a character: the tokens that end with it, and the mode after it. -/
def step : Mode → Char → Option (List Token × Mode)
  | blank restricted, c => next restricted c
  | operator o, c => if joins o c then none else next false c
  | word text, c =>
    if isNamePart c then some ([], .word (text ++ [c]))
    else (Token.ofWord? text).bind (close · c)
  | point, c => if isNameStart c then some ([], .property [c]) else none
  | property text, c =>
    if isNamePart c then some ([], .property (text ++ [c]))
    else close (.property (String.ofList text)) c
  | whole digits, c =>
    if c.isDigit then if digits = ['0'] then none else some ([], .whole (digits ++ [c]))
    else if c = '.' then some ([], .fraction digits [])
    else if isNameStart c then none
    else close (.ofDigits digits []) c
  | fraction before digits, c =>
    if c.isDigit then some ([], .fraction before (digits ++ [c]))
    else if digits = [] ∨ c = '.' ∨ isNameStart c then none
    else close (.ofDigits before digits) c
  | string text, c =>
    if c = '"' then some ([.string (String.ofList text)], idle)
    else if c = '\\' then some ([], .escape text)
    else if c ∈ ['\n', '\r', '\u2028', '\u2029'] then none
    else some ([], .string (text ++ [c]))
  | escape text, c =>
    match c with
    | '"' => some ([], .string (text ++ ['"']))
    | '\\' => some ([], .string (text ++ ['\\']))
    | 'n' => some ([], .string (text ++ ['\n']))
    | 'r' => some ([], .string (text ++ ['\r']))
    | 't' => some ([], .string (text ++ ['\t']))
    | 'u' => some ([], .unicode text 0 0)
    | _ => none
  | unicode text count value, c => do
    let digit ← hexValue? c
    let code := 16 * value + digit
    if count < 3 then return ([], .unicode text (count + 1) code)
    else return ([], .string (text ++ [← charOf? code]))

/-- The token that is still open in a mode, if it may end here. -/
def pending? : Mode → Option (List Token)
  | blank _ => some []
  | operator _ => some []
  | word text => (Token.ofWord? text).map fun token => [token]
  | point => none
  | property text => some [.property (String.ofList text)]
  | whole digits => some [.ofDigits digits []]
  | fraction before digits => if digits = [] then none else some [.ofDigits before digits]
  | string _ => none
  | escape _ => none
  | unicode _ _ _ => none

/-- Read some characters: the tokens that end among them, and the mode after them. -/
def run : Mode → List Char → Option (List Token × Mode)
  | mode, [] => some ([], mode)
  | mode, c :: chars => do
    let (first, mode) ← mode.step c
    let (rest, mode) ← run mode chars
    return (first ++ rest, mode)

end Mode

/-- The tokens of a text. -/
def tokens? (text : String) : Option (List Token) := do
  let (tokens, mode) ← Mode.idle.run text.toList
  return tokens ++ (← mode.pending?)

example : tokens? "(x - -1.50)" = some [.mark '(', .name "x", .operator .minus, .operator .minus,
    .number ⟨false, 4609434218613702656⟩, .mark ')'] := by
  decide +kernel

example : tokens? "x--1" = none := by decide +kernel

/-! ## Characters one after the other -/

namespace Mode

variable {mode mode' mode'' : Mode} {chars chars' : List Char} {tokens tokens' : List Token}

/-- A text is scanned one part after the other. -/
theorem run_append (h : mode.run chars = some (tokens, mode'))
    (h' : mode'.run chars' = some (tokens', mode'')) :
    mode.run (chars ++ chars') = some (tokens ++ tokens', mode'') := by
  induction chars generalizing mode tokens with
  | nil =>
      obtain ⟨rfl, rfl⟩ := Prod.mk.inj (Option.some.inj h)
      exact h'
  | cons c chars ih =>
      simp only [run, Option.bind_eq_bind, Option.bind_eq_some_iff, Prod.exists] at h
      obtain ⟨first, middle, hstep, rest, last, hrest, heq⟩ := h
      obtain ⟨rfl, rfl⟩ := Prod.mk.inj (Option.some.inj heq)
      simp [run, hstep, ih hrest]

/-- A word goes on with the characters of names. -/
theorem run_word {text : List Char} (h : ∀ c ∈ chars, isNamePart c) :
    (word text).run chars = some ([], .word (text ++ chars)) := by
  induction chars generalizing text with
  | nil => rw [List.append_nil]; rfl
  | cons c chars ih =>
      obtain ⟨hc, hchars⟩ := List.forall_mem_cons.1 h
      simp [run, step, hc, ih hchars]

/-- The name of a property goes on with the characters of names. -/
theorem run_property {text : List Char} (h : ∀ c ∈ chars, isNamePart c) :
    (property text).run chars = some ([], .property (text ++ chars)) := by
  induction chars generalizing text with
  | nil => rw [List.append_nil]; rfl
  | cons c chars ih =>
      obtain ⟨hc, hchars⟩ := List.forall_mem_cons.1 h
      simp [run, step, hc, ih hchars]

/-- The digits before the point go on if the first is no zero. -/
theorem run_whole {first : Char} {digits : List Char} (hfirst : first ≠ '0')
    (h : ∀ c ∈ chars, c.isDigit) :
    (whole (first :: digits)).run chars = some ([], .whole (first :: digits ++ chars)) := by
  induction chars generalizing digits with
  | nil => rw [List.append_nil]; rfl
  | cons c chars ih =>
      obtain ⟨hc, hchars⟩ := List.forall_mem_cons.1 h
      simp [run, step, hc, hfirst, ih hchars]

/-- The digits after the point go on. -/
theorem run_fraction {before digits : List Char} (h : ∀ c ∈ chars, c.isDigit) :
    (fraction before digits).run chars = some ([], .fraction before (digits ++ chars)) := by
  induction chars generalizing digits with
  | nil => rw [List.append_nil]; rfl
  | cons c chars ih =>
      obtain ⟨hc, hchars⟩ := List.forall_mem_cons.1 h
      simp [run, step, hc, ih hchars]

end Mode

end LetScript.JavaScript

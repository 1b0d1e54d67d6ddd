import LetScript.Text.Hex

/-!
# Names in the generated code

A name of a program may be any text, while a variable of the generated code is an identifier of
JavaScript. `mangle` keeps a name that is such an identifier already. Every other name is written
after `$_`, with each character that is no letter, digit or underscore replaced by its code point
in hexadecimal digits between dollar signs.
-/

namespace LetScript.Script

/-- The name of the support library. -/
def libraryName : String := "$rt"

/-- The name of the object that holds the host's names. -/
def globalsName : String := "$globals"

/-- A character that may start a plain name. -/
def isPlainStart (c : Char) : Bool := c.isAlpha || c == '_'

/-- A character that may continue a plain name. -/
def isPlainPart (c : Char) : Bool := c.isAlphanum || c == '_'

/-- A name made of letters, digits and underscores that does not start with a digit. -/
def isPlain (name : String) : Bool :=
  match name.toList with
  | [] => false
  | c :: rest => isPlainStart c && rest.all isPlainPart

/-- The words of JavaScript that cannot be variables, and the variables that generated code uses
by their own names. -/
def reservedWords : List String :=
  ["Error", "arguments", "await", "break", "case", "catch", "class", "const", "continue",
    "debugger", "default", "delete", "do", "else", "enum", "eval", "export", "extends", "false",
    "finally", "for", "function", "if", "implements", "import", "in", "instanceof", "interface",
    "let", "new", "null", "package", "private", "protected", "public", "return", "static", "super",
    "switch", "this", "throw", "true", "try", "typeof", "var", "void", "while", "with", "yield",
    "undefined", "NaN", "Infinity"]

/-- One character of a name that is not kept. -/
def mangleChar (c : Char) : List Char :=
  if isPlainPart c then [c] else '$' :: Text.hex c.toNat ++ ['$']

/-- The variable for a name. -/
def mangle (name : String) : String :=
  if isPlain name && !reservedWords.contains name then name
  else String.ofList ('$' :: '_' :: name.toList.flatMap mangleChar)

/-- The variable that holds the definitions of a scope. -/
def scopeVariable (scope : Nat) : String := "$s" ++ scope.repr

/-- The variable that holds the definitions of a let without a scope. -/
def looseVariable (node : Nat) : String := "$l" ++ node.repr

/-- A parameter that is never used. -/
def unusedParam (n : Nat) : String := "$unused" ++ n.repr

end LetScript.Script

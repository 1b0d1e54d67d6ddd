import LetScript.Layout.Doc
import LetScript.Script.Basic
import LetScript.Script.Library

/-!
# The text of a script

A script is written as a document. Functions with statements take a line for each statement, and
records a line for each definition and its value.
-/

namespace LetScript.Script

/-- A property of an object. A name that is no identifier is written as a string literal. -/
def propertyText (object name : String) : String :=
  if isPlain name then object ++ "." ++ name else object ++ "[" ++ stringLiteral name ++ "]"

/-- A statement that throws an error with a message. -/
def throwStatement (message : String) : String :=
  "throw new Error(" ++ stringLiteral message ++ ");"

/-- An expression that throws an error with a message. -/
def failureText (message : String) : String :=
  "(function () \x7b " ++ throwStatement message ++ " \x7d)()"

/-- The statements that throw errors with some messages, a line for each. -/
def failureLines (failures : List String) : Doc :=
  .concat (failures.map fun message => .line (throwStatement message))

/-- The statement that returns a value. -/
def returnLine (value : Doc) : Doc := .text "return " ++ value ++ .line ";"

/-- A function without parameters that is called at once. -/
def invoked (statements : Doc) : Doc :=
  .line "(function () \x7b" ++ .nest statements ++ .text "\x7d)()"

/-- A record of definitions whose lines are known. -/
def recordDoc (isEmpty : Bool) (entries : Doc) : Doc :=
  if isEmpty then .text (libraryName ++ ".record([])")
  else .line (libraryName ++ ".record([") ++ .nest entries ++ .text "])"

/-- A function whose body is known. -/
def functionDoc (curried : Bool) (params failures : List String) (body : Doc) : Doc :=
  let function :=
    .line ("function (" ++ String.intercalate ", " params ++ ") \x7b") ++
      .nest (failureLines failures ++ returnLine body) ++ .text "\x7d"
  if curried then
    .text (libraryName ++ ".curry(" ++ params.length.repr ++ ", ") ++ function ++ .text ")"
  else function

/-- The lines of a definition of a record. A comma follows all but the last. -/
def entryDoc (name : String) (value : Doc) (isLast : Bool) : Doc :=
  .line ("[" ++ stringLiteral name ++ ", function () \x7b") ++ .nest (returnLine value) ++
    .line (if isLast then "\x7d]" else "\x7d],")

mutual

/-- The document of an expression. -/
def Expr.doc : Expr → Doc
  | .number text => .text text
  | .variable name => .text name
  | .property object name => .text (propertyText object name)
  | .failure message => .text (failureText message)
  | .paren inner => .text "(" ++ inner.doc ++ .text ")"
  | .unary operator operand => .text ("(" ++ operator.symbol) ++ operand.doc ++ .text ")"
  | .binary operator left right =>
    .text "(" ++ left.doc ++ .text (" " ++ operator.symbol ++ " ") ++ right.doc ++ .text ")"
  | .call callee argument => callee.doc ++ .text "(" ++ argument.doc ++ .text ")"
  | .function curried params failures body => functionDoc curried params failures body.doc
  | .record entries => recordDoc entries.isEmpty (Entry.listDoc entries)
  | .faultyRecord failures entries =>
    invoked (failureLines failures ++
      returnLine (recordDoc entries.isEmpty (Entry.listDoc entries)))
  | .scoped name entries failures body =>
    invoked (.text ("var " ++ name ++ " = ") ++
      recordDoc entries.isEmpty (Entry.listDoc entries) ++ .line ";" ++
      failureLines failures ++ returnLine body.doc)

/-- The lines of the definitions of a record. -/
def Entry.listDoc : List Entry → Doc
  | [] => .nothing
  | .mk name value :: entries => entryDoc name value.doc entries.isEmpty ++ Entry.listDoc entries

end

/-- The declaration of the support library. -/
def libraryDoc : Doc :=
  match libraryLines with
  | [] => .nothing
  | first :: rest =>
    .line ("var " ++ libraryName ++ " = " ++ first) ++ closing rest
where
  /-- The remaining lines, with a semicolon after the last. -/
  closing : List String → Doc
    | [] => .nothing
    | [last] => .line (last ++ ";")
    | line :: lines => .line line ++ closing lines

/-- A whole program: a function that takes the object with the host's names and returns the value
of an expression. -/
def programDoc (expr : Expr) : Doc :=
  .line ("(function (" ++ globalsName ++ ") \x7b") ++
    .nest (.line "\"use strict\";" ++ libraryDoc ++ returnLine expr.doc) ++ .line "\x7d)"

end LetScript.Script

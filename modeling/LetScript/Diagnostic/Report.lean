import LetScript.Diagnostic.Basic
import LetScript.Source.Line
import LetScript.Text.Blank

/-!
# Reports

A report shows a diagnostic together with the source line it concerns. The blanks at the start of
the line are left out, and a caret below the line points to the character at the position of the
diagnostic.
-/

namespace LetScript.Diagnostic

/-- A mark at the right end of a field. -/
def marginMark (width : Nat) (mark : String) : String :=
  String.ofList (List.replicate (width - 1) ' ') ++ mark

/-- The number of characters before a byte offset of a text, or the offset itself if it lies
inside a character. -/
def column (text : List Char) (offset : Nat) : Nat :=
  match Text.splitAtByte? offset text with
  | some (before, _) => before.length
  | none => offset

/-- The name of a cause, with its tip. -/
def heading (diagnostic : Diagnostic) : String :=
  match diagnostic.cause.tip with
  | some tip => "Error: " ++ diagnostic.cause.name ++ " (" ++ tip ++ ")\n"
  | none => "Error: " ++ diagnostic.cause.name ++ "\n"

/-- A line of the source with the caret and the message below it. -/
def excerpt (diagnostic : Diagnostic) (line : Line) : String :=
  let number := line.number.repr
  let width := number.length + 2
  let indent := (line.text.takeWhile (· == ' ')).length
  let shown := Text.trimEnd (line.text.drop indent)
  let dashes := column line.text line.offset - indent
  marginMark width "|" ++ "\n" ++
    number ++ " | " ++ String.ofList shown ++ "\n" ++
    marginMark width "|" ++ " " ++ String.ofList (List.replicate dashes '-') ++ "^\n" ++
    marginMark width "=" ++ " " ++ diagnostic.message ++ "\n"

/-- A diagnostic as it is shown to the user, with the source line it concerns. Without a line to
show, only the message follows the name of the file. -/
def reportAt (diagnostic : Diagnostic) (file : String) (line : Option Line) : String :=
  diagnostic.heading ++ "-> " ++ file ++ "\n" ++
    match line with
    | some line => diagnostic.excerpt line
    | none => "  = " ++ diagnostic.message ++ "\n"

/-- The report on a diagnostic of a source text. -/
def report (diagnostic : Diagnostic) (source file : String) : String :=
  diagnostic.reportAt file (Line.at? source diagnostic.position.offset)

/-- The reports on the diagnostics of a source text, which is cut into lines only once. -/
def reports (diagnostics : List Diagnostic) (source file : String) : List String :=
  let lines := splitLines source.toList
  let size := source.utf8ByteSize
  diagnostics.map fun diagnostic =>
    diagnostic.reportAt file (Line.inLines? lines size diagnostic.position.offset)

end LetScript.Diagnostic

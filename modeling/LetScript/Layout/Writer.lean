import LetScript.Source.Line

/-!
# Writing indented text

A writer builds a text with indentation. The blanks of an indented line are written together with
the first text on it, so a line that stays empty has none, and a fragment of several lines takes
the level of the place it is written to.
-/

namespace LetScript

/-- A text under construction. -/
structure Writer where
  /-- The number of blanks of one level. -/
  width : Nat
  level : Nat := 0
  /-- Nothing has been written on the current line. -/
  atLineStart : Bool := true
  output : String := ""

namespace Writer

/-- The blanks that start a line at the current level. -/
def indentation (writer : Writer) : String :=
  String.ofList (List.replicate (writer.level * writer.width) ' ')

/-- Write a text without line feeds. -/
def write (writer : Writer) (text : String) : Writer :=
  if text.isEmpty then writer
  else if writer.atLineStart then
    { writer with atLineStart := false, output := writer.output ++ writer.indentation ++ text }
  else { writer with output := writer.output ++ text }

/-- End the current line. -/
def newline (writer : Writer) : Writer :=
  { writer with atLineStart := true, output := writer.output ++ "\n" }

/-- Write a text and end the line. -/
def line (writer : Writer) (text : String) : Writer := (writer.write text).newline

/-- A line without its line feed and the carriage return before it. -/
def dropLineEnd (line : List Char) : List Char :=
  if line.getLast? = some '\n' then
    let line := line.dropLast
    if line.getLast? = some '\r' then line.dropLast else line
  else line

/-- Write the lines of a text, each at the current level. -/
def lines (writer : Writer) (text : String) : Writer :=
  (splitLines text.toList).foldl (fun writer line => writer.line (String.ofList (dropLineEnd line)))
    writer

/-- Go to the next level. -/
def indent (writer : Writer) : Writer := { writer with level := writer.level + 1 }

/-- Go back to the level before. -/
def dedent (writer : Writer) : Writer := { writer with level := writer.level - 1 }

end Writer

end LetScript

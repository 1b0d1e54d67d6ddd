import LetScript.Layout.Writer

/-!
# Documents

A document describes a text by its pieces and line ends, and says which parts of it are indented.
Writing a document keeps the level of the writer.
-/

namespace LetScript

/-- A text made of pieces, line ends and indented parts. -/
inductive Doc where
  | nothing
  | text (text : String)
  | newline
  | append (first second : Doc)
  /-- A part that is one level deeper. -/
  | nest (body : Doc)

namespace Doc

instance : Append Doc := ⟨append⟩

/-- A piece of text and the end of its line. -/
def line (text : String) : Doc := .text text ++ newline

/-- Documents one after the other. -/
def concat : List Doc → Doc
  | [] => nothing
  | doc :: docs => doc ++ concat docs

end Doc

namespace Writer

/-- Write a document. -/
def put (writer : Writer) : Doc → Writer
  | .nothing => writer
  | .text text => writer.write text
  | .newline => writer.newline
  | .append first second => (writer.put first).put second
  | .nest body => (writer.indent.put body).dedent

@[simp] theorem level_write (writer : Writer) (text : String) :
    (writer.write text).level = writer.level := by
  unfold write
  split
  · rfl
  · split <;> rfl

/-- Writing a document keeps the level. -/
@[simp] theorem level_put (writer : Writer) (doc : Doc) :
    (writer.put doc).level = writer.level := by
  induction doc generalizing writer with
  | nothing => rfl
  | text text => exact writer.level_write text
  | newline => rfl
  | append first second ihf ihs => rw [put, ihs, ihf]
  | nest body ih =>
    rw [put, dedent, ih]
    exact Nat.add_sub_cancel writer.level 1

end Writer

end LetScript

import LetScript.Text.Bytes

/-!
# Lines of a source text

`splitLines` cuts a text after every line feed, and `Line.at?` finds the line that holds a byte
offset. The offset at the end of a text belongs to its last line, which is empty if the text is
empty or ends with a line feed.
-/

namespace LetScript

/-- Cut a text after every line feed. No line is empty, and only the last one may lack a line
feed. -/
def splitLines (text : List Char) : List (List Char) :=
  match text with
  | [] => []
  | c :: text =>
    match _ : (c :: text).dropWhile (· ≠ '\n') with
    | [] => [c :: text]
    | newline :: rest => ((c :: text).takeWhile (· ≠ '\n') ++ [newline]) :: splitLines rest
termination_by text.length
decreasing_by
  rename_i h
  have hle := (List.dropWhile_sublist (· ≠ '\n') (l := c :: text)).length_le
  rw [h] at hle
  simpa using Nat.lt_succ_of_le hle

/-- Cutting a text into lines loses nothing. -/
theorem flatten_split_lines (text : List Char) : (splitLines text).flatten = text := by
  fun_induction splitLines text with
  | case1 => rfl
  | case2 c text _ => simp
  | case3 c text newline rest h ih =>
    rw [List.flatten_cons, ih, List.append_assoc, List.singleton_append, ← h]
    exact List.takeWhile_append_dropWhile

/-- A line of a source text: its number, counted from one, its text with the line feed, and an
offset into it. -/
structure Line where
  number : Nat
  text : List Char
  offset : Nat
  deriving DecidableEq

namespace Line

/-- Find a byte offset in lines that are numbered from `number` on. -/
def find (number offset : Nat) : List (List Char) → Line
  | [] => ⟨number, [], 0⟩
  | line :: lines =>
    let size := Text.byteLength line
    if offset < size || (lines.isEmpty && offset == size && line.getLast? != some '\n') then
      ⟨number, line, offset⟩
    else find (number + 1) (offset - size) lines

/-- The line that holds a byte offset, in a text of the given size that has been cut into lines.
There is none past the end. -/
def inLines? (lines : List (List Char)) (size offset : Nat) : Option Line :=
  if size < offset then none else some (find 1 offset lines)

/-- The line of a source text that holds a byte offset. -/
def at? (source : String) (offset : Nat) : Option Line :=
  inLines? (splitLines source.toList) source.utf8ByteSize offset

end Line

end LetScript

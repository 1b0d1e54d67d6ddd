import LetScript.Layout.Doc

/-!
# The lines of a document

Writing a document appends its characters (`Doc.put_eq`), which depend on the level of the place it
is written to and on whether a line has just been started there. A document fills its lines
(`Doc.Fills`) if it never ends a line that is still empty and no text of it has a line end inside.
Such a document is indented as a whole: at a higher level it has the same characters, with more
blanks after each line end (`Doc.Fills.chars_add_level`). Nothing else could be expected, as blanks
are written together with the first text of a line, so an empty line has none at any level.
-/

namespace LetScript

/-! ## Texts -/

namespace Text

/-- A text without line ends. -/
def isOneLine (text : String) : Bool := !text.toList.contains '\n'

/-- A text that is not empty and has no line ends. -/
def isPiece (text : String) : Bool := !text.isEmpty && isOneLine text

variable {first second : String}

/-- A text on one line has no line end. -/
theorem one_line_iff {text : String} : isOneLine text ↔ '\n' ∉ text.toList := by
  simp [isOneLine]

/-- A piece is not empty, and it is on one line. -/
theorem is_piece_iff {text : String} : isPiece text ↔ text ≠ "" ∧ '\n' ∉ text.toList := by
  simp [isPiece, one_line_iff]

/-- Texts one after the other on one line. -/
theorem one_line_append (h : isOneLine first) (h' : isOneLine second) :
    isOneLine (first ++ second) := by
  rw [one_line_iff] at h h' ⊢
  rw [String.toList_append]
  exact List.not_mem_append h h'

/-- A piece with more text after it. -/
theorem is_piece_append (h : isPiece first) (h' : isOneLine second) :
    isPiece (first ++ second) := by
  obtain ⟨hne, hfirst⟩ := is_piece_iff.1 h
  have hline := one_line_append (one_line_iff.2 hfirst) h'
  exact is_piece_iff.2 ⟨fun hempty => hne (String.append_eq_empty_iff.1 hempty).1,
    one_line_iff.1 hline⟩

/-- The decimal digits of a number are on one line. -/
theorem one_line_repr (n : Nat) : isOneLine n.repr := by
  refine one_line_iff.2 fun hmem => ?_
  rw [Nat.repr_eq_ofList_toDigits, String.toList_ofList] at hmem
  cases Nat.isDigit_of_mem_toDigits (by decide) (by decide) hmem

/-- A text with some more blanks after every line end. -/
def reindent (count : Nat) (text : List Char) : List Char :=
  text.flatMap fun c => if c = '\n' then '\n' :: List.replicate count ' ' else [c]

@[simp] theorem reindent_nil (count : Nat) : reindent count [] = [] := rfl

@[simp] theorem reindent_append (count : Nat) (first second : List Char) :
    reindent count (first ++ second) = reindent count first ++ reindent count second :=
  List.flatMap_append

/-- A text without line ends stays as it is. -/
theorem reindent_of_not_mem {text : List Char} (h : '\n' ∉ text) (count : Nat) :
    reindent count text = text := by
  unfold reindent
  induction text with
  | nil => rfl
  | cons c text ih =>
      obtain ⟨hc, htext⟩ := not_or.1 (mt List.mem_cons.2 h)
      rw [List.flatMap_cons, if_neg (Ne.symm hc), ih htext, List.singleton_append]

/-- A text that ends some lines and starts another one is split into them. -/
theorem split_on_lines {lines : List (List Char)} {last : List Char}
    (hlines : ∀ line ∈ lines, '\n' ∉ line) (hlast : '\n' ∉ last) :
    (lines.flatMap (· ++ ['\n']) ++ last).splitOn '\n' = lines ++ [last] := by
  have hsingle {line : List Char} (h : '\n' ∉ line) : line.splitOn '\n' = [line] :=
    List.splitOnP_eq_singleton fun c hc => beq_false_of_ne fun heq => h (heq ▸ hc)
  induction lines with
  | nil => exact hsingle hlast
  | cons line lines ih =>
      obtain ⟨hline, hrest⟩ := List.forall_mem_cons.1 hlines
      have hsplit : (line ++ '\n' :: (lines.flatMap (· ++ ['\n']) ++ last)).splitOn '\n' =
          line.splitOn '\n' ++ (lines.flatMap (· ++ ['\n']) ++ last).splitOn '\n' :=
        List.splitOnP_append_cons _ _ rfl
      rw [List.flatMap_cons, List.append_assoc, List.append_assoc, List.singleton_append, hsplit,
        hsingle hline, ih hrest, List.singleton_append, List.cons_append]

end Text

namespace Writer

/-- A call of a writer. -/
inductive Call where
  | write (text : String)
  | newline
  | indent
  | dedent

/-- What a call does. -/
def perform (writer : Writer) : Call → Writer
  | .write text => writer.write text
  | .newline => writer.newline
  | .indent => writer.indent
  | .dedent => writer.dedent

end Writer

namespace Doc

/-- The calls that write a document, in order. -/
def calls : Doc → List Writer.Call
  | nothing => []
  | text piece => [.write piece]
  | newline => [.newline]
  | append first second => first.calls ++ second.calls
  | nest body => .indent :: body.calls ++ [.dedent]

/-- A document is written call by call. -/
theorem put_eq_foldl (doc : Doc) (writer : Writer) :
    writer.put doc = doc.calls.foldl Writer.perform writer := by
  induction doc generalizing writer with
  | nothing | text | newline => rfl
  | append first second ihfirst ihsecond =>
      rw [Writer.put, calls, List.foldl_append, ihfirst, ihsecond]
  | nest body ih =>
      rw [Writer.put, calls, List.foldl_append, List.foldl_cons, ih]
      rfl

/-! ## Characters -/

/-- Whether a line is fresh after a document. -/
def freshAfter (fresh : Bool) : Doc → Bool
  | nothing => fresh
  | text piece => piece.isEmpty && fresh
  | newline => true
  | append first second => second.freshAfter (first.freshAfter fresh)
  | nest body => body.freshAfter fresh

/-- The characters of a document at some level of indentation. On a fresh line the blanks are
still to be written. -/
def chars (width level : Nat) (fresh : Bool) : Doc → List Char
  | nothing => []
  | text piece =>
    if piece.isEmpty then []
    else (if fresh then List.replicate (level * width) ' ' else []) ++ piece.toList
  | newline => ['\n']
  | append first second =>
    first.chars width level fresh ++ second.chars width level (first.freshAfter fresh)
  | nest body => body.chars width (level + 1) fresh

/-- Writing a document appends its characters. -/
theorem put_eq (doc : Doc) (writer : Writer) :
    (writer.put doc).output.toList =
        writer.output.toList ++ doc.chars writer.width writer.level writer.atLineStart ∧
      (writer.put doc).atLineStart = doc.freshAfter writer.atLineStart ∧
      (writer.put doc).width = writer.width := by
  induction doc generalizing writer with
  | nothing => exact ⟨(List.append_nil _).symm, rfl, rfl⟩
  | newline => exact ⟨String.toList_append .., rfl, rfl⟩
  | text piece =>
      simp only [Writer.put, Writer.write, chars, freshAfter]
      by_cases hempty : piece.isEmpty
      · simp [hempty]
      · cases hfresh : writer.atLineStart <;>
          simp [hempty, Writer.indentation, String.toList_append]
  | append first second ihfirst ihsecond =>
      obtain ⟨houtput, hfresh, hwidth⟩ := ihfirst writer
      obtain ⟨houtput', hfresh', hwidth'⟩ := ihsecond (writer.put first)
      rw [Writer.put, houtput', houtput, hfresh', hfresh, hwidth', hwidth, Writer.level_put,
        List.append_assoc]
      exact ⟨rfl, rfl, rfl⟩
  | nest body ih => exact ih writer.indent

/-! ## Filled lines -/

/-- A document that fills its lines when it is written on a fresh line or in the middle of one, and
after which a line is fresh or not. Lines are ended only after some text, no text has a line end
inside, and an indented part starts on a fresh line. -/
inductive Fills : Bool → Doc → Bool → Prop where
  | nothing : Fills true nothing true
  | text {fresh : Bool} {piece : String} : Text.isPiece piece → Fills fresh (text piece) false
  | newline : Fills false newline true
  | append {fresh middle after : Bool} {first second : Doc} :
      Fills fresh first middle → Fills middle second after → Fills fresh (append first second) after
  | nest {after : Bool} {body : Doc} : Fills true body after → Fills true (nest body) after

namespace Fills

variable {fresh middle after : Bool} {doc : Doc}

/-- A document says whether the line after it is fresh. -/
theorem fresh_after_eq (h : Fills fresh doc after) : doc.freshAfter fresh = after := by
  induction h with
  | nothing | newline => rfl
  | text hpiece => simp [freshAfter, (Text.is_piece_iff.1 hpiece).1]
  | append _ _ ihfirst ihsecond => rw [freshAfter, ihfirst, ihsecond]
  | nest _ ih => exact ih

/-- No text that is written has a line end inside. -/
theorem not_mem_of_write (h : Fills fresh doc after) {piece : String}
    (hpiece : .write piece ∈ doc.calls) : '\n' ∉ piece.toList := by
  induction h with
  | nothing | newline => simp [calls] at hpiece
  | text hwritten =>
      obtain ⟨⟩ := List.mem_singleton.1 hpiece
      exact (Text.is_piece_iff.1 hwritten).2
  | append _ _ ihfirst ihsecond =>
      rcases List.mem_append.1 hpiece with hpiece | hpiece
      · exact ihfirst hpiece
      · exact ihsecond hpiece
  | nest _ ih =>
      simp only [calls, List.cons_append, List.mem_cons, List.mem_append, reduceCtorEq,
        List.not_mem_nil, or_false, false_or] at hpiece
      exact ih hpiece

/-- At a higher level a document has more blanks after its line ends. On a fresh line they come
before its first text, so they stand before the document, or still have to be written after it. -/
theorem chars_add_level (h : Fills fresh doc after) (width extra level : Nat) :
    doc.chars width (extra + level) fresh ++
        List.replicate (if after then extra * width else 0) ' ' =
      List.replicate (if fresh then extra * width else 0) ' ' ++
        Text.reindent (extra * width) (doc.chars width level fresh) := by
  induction h generalizing level with
  | nothing => simp [chars]
  | newline => simp [chars, Text.reindent]
  | @text fresh piece hpiece =>
      obtain ⟨hne, hline⟩ := Text.is_piece_iff.1 hpiece
      have hsame := Text.reindent_of_not_mem hline (extra * width)
      have hblanks : Text.reindent (extra * width) (List.replicate (level * width) ' ') =
          List.replicate (level * width) ' ' := Text.reindent_of_not_mem (by simp) _
      cases fresh with
      | false => simp [chars, hne, hsame]
      | true =>
          simp [chars, hne, hsame, hblanks, Nat.add_mul, ← List.replicate_append_replicate]
  | @append fresh middle after first second hfirst _ ihfirst ihsecond =>
      rw [chars, chars, hfirst.fresh_after_eq, List.append_assoc, ihsecond, ← List.append_assoc,
        ihfirst, List.append_assoc, Text.reindent_append]
  | nest _ ih => exact ih (level + 1)

/-- Where a document ends in the middle of a line, a line that is not fresh stays so. The blanks of
a fresh line may have been written already. -/
theorem fresh_after_of_middle (h : Fills fresh doc after) {blank : Bool}
    (hblank : fresh = false → blank = false) : after = false → doc.freshAfter blank = false := by
  induction h generalizing blank with
  | nothing => exact hblank
  | text hpiece => simp [freshAfter, (Text.is_piece_iff.1 hpiece).1]
  | newline => exact nofun
  | append _ _ ihfirst ihsecond => exact ihsecond (ihfirst hblank)
  | nest _ ih => exact ih hblank

/-- A document ends lines that are not empty and starts another one, which is not empty if the
document ends in the middle of it. The first of these lines may have been started before. -/
theorem exists_lines (h : Fills fresh doc after) (width level : Nat) {blank : Bool}
    (hblank : fresh = false → blank = false) {line : List Char} (hline : '\n' ∉ line)
    (hstarted : fresh = false → line ≠ []) :
    ∃ (lines : List (List Char)) (last : List Char),
      line ++ doc.chars width level blank = lines.flatMap (· ++ ['\n']) ++ last ∧
      (∀ done ∈ lines, '\n' ∉ done ∧ done ≠ []) ∧ '\n' ∉ last ∧ (after = false → last ≠ []) := by
  induction h generalizing level blank line with
  | nothing => exact ⟨[], line, List.append_nil line, by simp, hline, hstarted⟩
  | @text fresh piece hpiece =>
      obtain ⟨hne, hpiece⟩ := Text.is_piece_iff.1 hpiece
      refine ⟨[], line ++ (Doc.text piece).chars width level blank, rfl, by simp, ?_, ?_⟩
      · cases blank <;> simp [chars, hne, hline, hpiece]
      · cases blank <;> simp [chars, hne]
  | newline =>
      exact ⟨[line], [], by simp [chars], by simpa [hline] using hstarted, by simp, nofun⟩
  | @append fresh middle after first second hfirst _ ihfirst ihsecond =>
      obtain ⟨lines, last, heq, hlines, hlast, hmiddle⟩ := ihfirst level hblank hline hstarted
      obtain ⟨lines', last', heq', hlines', hlast', hafter⟩ :=
        ihsecond level (hfirst.fresh_after_of_middle hblank) hlast hmiddle
      refine ⟨lines ++ lines', last', ?_, List.forall_mem_append.2 ⟨hlines, hlines'⟩, hlast',
        hafter⟩
      rw [chars, ← List.append_assoc, heq, List.append_assoc, heq', List.flatMap_append,
        List.append_assoc]
  | nest _ ih => exact ih (level + 1) hblank hline hstarted

/-- A document that may be written anywhere starts with a text at its own level. -/
theorem chars_fresh {after' : Bool} (h : Fills true doc after) (h' : Fills false doc after')
    (width level : Nat) :
    doc.chars width level true =
        List.replicate (level * width) ' ' ++ doc.chars width level false ∧
      doc.freshAfter true = doc.freshAfter false := by
  induction doc generalizing after after' with
  | nothing => cases h'
  | text piece =>
      cases h with
      | text hpiece => simp [chars, freshAfter, (Text.is_piece_iff.1 hpiece).1]
  | newline => cases h
  | append first second ihfirst _ =>
      cases h with
      | append hfirst _ =>
          cases h' with
          | append hfirst' _ =>
              obtain ⟨hchars, hfresh⟩ := ihfirst hfirst hfirst'
              simp only [chars, freshAfter, hchars, hfresh, List.append_assoc, and_self]
  | nest => cases h'

end Fills

/-! ## Fragments of a line -/

/-- A document that may be written anywhere and ends in the middle of a line. -/
def Inline (doc : Doc) : Prop := ∀ fresh, Fills fresh doc false

namespace Inline

variable {doc : Doc}

/-- A piece of text. -/
theorem text {piece : String} (h : Text.isPiece piece) : (text piece).Inline :=
  fun _ => .text h

/-- At level zero it makes no difference whether a line is fresh. -/
theorem chars_level_zero (h : doc.Inline) (width : Nat) :
    doc.chars width 0 true = doc.chars width 0 false := by
  have hchars := ((h true).chars_fresh (h false) width 0).1
  rwa [Nat.zero_mul, List.replicate_zero, List.nil_append] at hchars

/-- In the middle of a line a document has the same characters at every level, apart from the blanks
after its line ends. -/
theorem chars_eq_reindent (h : doc.Inline) (width level : Nat) :
    doc.chars width level false = Text.reindent (level * width) (doc.chars width 0 false) := by
  have hchars := (h false).chars_add_level width level 0
  simpa using hchars

/-- No line of a document is empty. -/
theorem nil_not_mem_split_on (h : doc.Inline) (width level : Nat) (fresh : Bool) :
    [] ∉ (doc.chars width level fresh).splitOn '\n' := by
  have hfresh : true = false → fresh = false := nofun
  have hempty : '\n' ∉ ([] : List Char) := List.not_mem_nil
  obtain ⟨lines, last, heq, hlines, hlast, hended⟩ :=
    (h true).exists_lines width level hfresh hempty nofun
  rw [List.nil_append] at heq
  rw [heq, Text.split_on_lines (fun line hline => (hlines line hline).1) hlast, List.mem_append,
    List.mem_singleton]
  rintro (hmem | hmem)
  · exact (hlines _ hmem).2 rfl
  · exact hended rfl hmem.symm

/-- In the middle of a line a document adds its characters to the output. -/
theorem put_eq_append (h : doc.Inline) (width level : Nat) (output : String) :
    (Writer.mk width level false output).put doc =
      Writer.mk width level false (output ++ String.ofList (doc.chars width level false)) := by
  obtain ⟨houtput, hfresh, hwidth⟩ := doc.put_eq (Writer.mk width level false output)
  have hlevel := Writer.level_put (Writer.mk width level false output) doc
  rw [(h false).fresh_after_eq] at hfresh
  generalize (Writer.mk width level false output).put doc = after at *
  obtain ⟨width', level', fresh', output'⟩ := after
  obtain rfl : width' = width := hwidth
  obtain rfl : level' = level := hlevel
  obtain rfl : fresh' = false := hfresh
  congr 1
  rw [← String.toList_inj, String.toList_append, String.toList_ofList]
  exact houtput

end Inline

end Doc

end LetScript

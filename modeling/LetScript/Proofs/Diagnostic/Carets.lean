import LetScript.Diagnostic.Report
import LetScript.Proofs.Diagnostic.Origins
import LetScript.Proofs.Layout.Lines
import LetScript.Proofs.Source.Lines

/-!
# Carets stand under the right characters

A diagnostic of a source stands at the start of one of its tokens, which is not blank. So its
position lies between two characters, and not among the blanks that a report leaves out at the start
of a line (`Token.start_split`). A report on such a position shows the line that holds it, and the
caret below stands in the same column as the character at the position
(`Diagnostic.points_of_split`). This is what `compile_points` says of all diagnostics of a source.
-/

namespace LetScript

/-! ## Cutting texts -/

namespace Text

/-- A text without bytes is empty. -/
theorem eq_nil_of_byte_length {text : List Char} (h : byteLength text = 0) : text = [] := by
  cases text with
  | nil => rfl
  | cons c text =>
      have hpos := c.utf8Size_pos
      rw [byte_length_cons] at h
      omega

/-- Of two first parts of a text, the one with more bytes starts with the other one. -/
theorem split_of_byte_length_le {first second first' second' : List Char}
    (h : first ++ second = first' ++ second') (hle : byteLength first ≤ byteLength first') :
    ∃ middle, first' = first ++ middle ∧ second = middle ++ second' := by
  rcases List.append_eq_append_iff.1 h with hsplit | ⟨middle, rfl, rfl⟩
  · exact hsplit
  · rw [byte_length_append] at hle
    obtain rfl : middle = [] := eq_nil_of_byte_length (by omega)
    exact ⟨[], by simp, rfl⟩

/-- What is removed from the end of a text is white space. -/
theorem trim_end_append (text : List Char) :
    ∃ trimmed, trimEnd text ++ trimmed = text ∧ ∀ c ∈ trimmed, isSpace c := by
  refine ⟨(text.reverse.takeWhile isSpace).reverse, ?_, fun c hc => ?_⟩
  · rw [trimEnd, ← List.reverse_append, List.takeWhile_append_dropWhile, List.reverse_reverse]
  · exact List.all_eq_true.1 List.all_takeWhile c (List.mem_reverse.1 hc)

/-- White space at the end of a text is removed. -/
theorem trim_end_concat {c : Char} (hc : isSpace c) (text : List Char) :
    trimEnd (text ++ [c]) = trimEnd text := by
  rw [trimEnd, trimEnd, List.reverse_append, List.reverse_singleton, List.singleton_append,
    List.dropWhile_cons_of_pos hc]

/-- The rest of a text after its first characters of a class. -/
theorem drop_take_while (p : Char → Bool) (text : List Char) :
    text.drop (text.takeWhile p).length = text.dropWhile p := by
  have hsplit : text.takeWhile p ++ text.dropWhile p = text := List.takeWhile_append_dropWhile
  calc text.drop (text.takeWhile p).length
      = (text.takeWhile p ++ text.dropWhile p).drop (text.takeWhile p).length := by rw [hsplit]
    _ = text.dropWhile p := List.drop_left

/-- Characters of a class at the start of a text end where one of another class follows. -/
theorem length_take_while_le {p : Char → Bool} {head tail : List Char}
    (h : ∀ c, tail.head? = some c → p c = false) :
    ((head ++ tail).takeWhile p).length ≤ head.length := by
  have hnone : tail.takeWhile p = [] := by
    cases tail with
    | nil => rfl
    | cons c tail => exact List.takeWhile_cons_of_neg (by rw [h c rfl]; exact Bool.false_ne_true)
  rw [List.takeWhile_append, hnone, List.append_nil]
  split
  · exact Nat.le_refl _
  · exact (List.takeWhile_sublist p).length_le

end Text

/-! ## Lines around positions -/

/-- A position between two characters of a source lies between two characters of its line. -/
theorem Line.at_split {source : String} {before after : List Char}
    (hsource : source.toList = before ++ after) :
    ∃ line front head tail rest, at? source (Text.byteLength before) = some line ∧
      before = front ++ head ∧ after = tail ++ rest ∧ line.text = head ++ tail ∧
      line.number = 1 + front.count '\n' ∧ line.offset = Text.byteLength head ∧
      line.Lies front rest := by
  have hle : Text.byteLength before ≤ source.utf8ByteSize := by
    rw [← Text.byte_length_to_list, hsource, Text.byte_length_append]
    exact Nat.le_add_right ..
  obtain ⟨line, front, rest, hline, htext, hnumber, hoffset, hlies⟩ := at_lies hle
  obtain ⟨head, rfl, hafter⟩ := Text.split_of_byte_length_le (htext.symm.trans hsource) (by omega)
  have hhead : line.offset = Text.byteLength head := by
    rw [Text.byte_length_append] at hoffset
    omega
  have hshort : Text.byteLength head ≤ Text.byteLength line.text := by
    rcases hlies.ends with ⟨-, -, -, hlt⟩ | ⟨-, -, hle⟩
    · omega
    · omega
  obtain ⟨tail, htail, rfl⟩ := Text.split_of_byte_length_le hafter.symm hshort
  exact ⟨line, front, head, tail, rest, hline, rfl, rfl, htail, hnumber, hhead, hlies⟩

/-- The character at a position is one of its line, unless the source ends at the position. -/
theorem Line.Lies.head_tail {line : Line} {front rest head tail : List Char}
    (h : line.Lies front rest) (htext : line.text = head ++ tail)
    (hoffset : line.offset = Text.byteLength head) : tail.head? = (tail ++ rest).head? := by
  rcases h.ends with ⟨-, -, -, hlt⟩ | ⟨-, rfl, -⟩
  · -- the line has a character at the position
    rw [hoffset, htext, Text.byte_length_append] at hlt
    cases tail with
    | nil => exact absurd hlt (Nat.lt_irrefl _)
    | cons c tail => rfl
  · rw [List.append_nil]

/-- A token that is not blank starts between two characters of the source, and the one that follows
is not blank. -/
theorem Token.start_split {source file : String} {token : Token}
    (h : token ∈ (read source file).toList) (hkind : token.kind ≠ .blank) :
    ∃ before after, source.toList = before ++ after ∧
      token.span.start = ⟨file, Text.byteLength before⟩ ∧
      ∀ c, after.head? = some c → Text.isBlank c = false := by
  rcases mem_read h with ⟨before, c, rest, hplace⟩ | rfl
  · refine ⟨before, c :: rest, hplace.text_eq, by rw [hplace.token_eq]; rfl, fun d hd => ?_⟩
    obtain rfl := Option.some.inj hd
    refine Bool.eq_false_iff.2 fun hblank => hkind ?_
    rw [hplace.token_eq]
    show (Lexeme.scan c rest).kind = .blank
    rw [Lexeme.scan, if_pos hblank]
    rfl
  · refine ⟨source.toList, [], (List.append_nil _).symm, ?_, fun c hc => by cases hc⟩
    rw [Text.byte_length_to_list]
    rfl

namespace Diagnostic

/-! ## Reports -/

/-- A report shows a line of the source and points to the character at the position of its
diagnostic. The line is shown as `numbered`, and below it a caret follows on `pointer`. White space
that was removed from the end of the line is `trimmed`. -/
structure Points (d : Diagnostic) (source file : String) (line : Line) (numbered pointer : String)
    (trimmed : List Char) : Prop where
  /-- The line of the position is shown. -/
  located : Line.at? source d.position.offset = some line
  /-- The line with its number and the caret stand on two lines of the report, one below the
  other. -/
  report_eq : d.report source file =
    d.heading ++ "-> " ++ file ++ "\n" ++ marginMark (line.number.repr.length + 2) "|" ++ "\n" ++
      numbered ++ "\n" ++ pointer ++ "^\n" ++
      marginMark (line.number.repr.length + 2) "=" ++ " " ++ d.message ++ "\n"
  numbered_line : '\n' ∉ numbered.toList
  pointer_line : '\n' ∉ pointer.toList
  /-- There is no other caret before the one that points. -/
  caret : '^' ∉ pointer.toList
  /-- Apart from white space at its end, the line is shown without the blanks at its start. -/
  shown : numbered.toList ++ trimmed =
    line.number.repr.toList ++ [' ', '|', ' '] ++ line.text.dropWhile (· == ' ')
  trimmed_space : ∀ c ∈ trimmed, Text.isSpace c
  /-- The position lies between two characters of the line, and not among the blanks that are left
  out at its start. What is shown before the caret's column is the number, the mark and the rest of
  the line up to the position, and the line goes on there as the source does at the position. -/
  aligned : ∃ front head tail rest, source.toList = front ++ (head ++ tail) ++ rest ∧
    line.text = head ++ tail ∧ line.number = 1 + front.count '\n' ∧ line.Lies front rest ∧
    d.position.offset = (String.ofList (front ++ head)).utf8ByteSize ∧
    (line.text.takeWhile (· == ' ')).length ≤ head.length ∧
    pointer.length =
      line.number.repr.length + 3 + (head.length - (line.text.takeWhile (· == ' ')).length) ∧
    (∃ before, before.length = pointer.length ∧ numbered.toList ++ trimmed = before ++ tail) ∧
    (numbered.toList ++ trimmed)[pointer.length]? = (tail ++ rest).head?

/-- A line of the source as a report shows it. -/
def numberedLine (line : Line) : String :=
  line.number.repr ++ " | " ++
    String.ofList (Text.trimEnd (line.text.drop (line.text.takeWhile (· == ' ')).length))

/-- What stands before the caret of a report. -/
def pointerLine (line : Line) : String :=
  marginMark (line.number.repr.length + 2) "|" ++ " " ++
    String.ofList (List.replicate
      (column line.text line.offset - (line.text.takeWhile (· == ' ')).length) '-')

/-- A report on a position in a line. -/
theorem report_of_at {d : Diagnostic} {source : String} {line : Line}
    (h : Line.at? source d.position.offset = some line) (file : String) :
    d.report source file =
      d.heading ++ "-> " ++ file ++ "\n" ++ marginMark (line.number.repr.length + 2) "|" ++ "\n" ++
        numberedLine line ++ "\n" ++ pointerLine line ++ "^\n" ++
        marginMark (line.number.repr.length + 2) "=" ++ " " ++ d.message ++ "\n" := by
  rw [report, h, reportAt]
  simp only [excerpt, numberedLine, pointerLine, String.append_assoc]

section Lines

variable {line : Line}

/-- The characters before the caret. -/
theorem to_list_pointer_line (line : Line) :
    (pointerLine line).toList =
      List.replicate (line.number.repr.length + 1) ' ' ++ ['|', ' '] ++
        List.replicate (column line.text line.offset - (line.text.takeWhile (· == ' ')).length)
          '-' := by
  simp [pointerLine, marginMark]

/-- A line is shown without line feeds. -/
theorem numbered_line_one_line {front rest : List Char} (h : line.Lies front rest) :
    '\n' ∉ (numberedLine line).toList := by
  -- the line feed is white space, and the blanks at the start of the line end before it
  have hshown : ∃ (body : List Char) (indent : Nat), '\n' ∉ body ∧
      Text.trimEnd (line.text.drop (line.text.takeWhile (· == ' ')).length) =
        Text.trimEnd (body.drop indent) := by
    rcases h.ends with ⟨body, heq, hbody, -⟩ | ⟨hnone, -, -⟩
    · have hle : ((body ++ ['\n']).takeWhile (· == ' ')).length ≤ body.length :=
        Text.length_take_while_le fun c hc => Option.some.inj hc ▸ rfl
      refine ⟨body, ((body ++ ['\n']).takeWhile (· == ' ')).length, hbody, ?_⟩
      rw [heq, List.drop_append_of_le_length hle, Text.trim_end_concat rfl]
    · exact ⟨line.text, _, hnone, rfl⟩
  obtain ⟨body, indent, hbody, hshown⟩ := hshown
  obtain ⟨trimmed, htrimmed, -⟩ := Text.trim_end_append (body.drop indent)
  have hnumber := Text.one_line_iff.1 (Text.one_line_repr line.number)
  have htext : '\n' ∉ Text.trimEnd (body.drop indent) := fun hmem => by
    have hdrop := List.mem_append_left trimmed hmem
    rw [htrimmed] at hdrop
    exact hbody (List.mem_of_mem_drop hdrop)
  have hmark : '\n' ∉ " | ".toList := by decide
  unfold numberedLine
  rw [hshown, String.toList_append, String.toList_append]
  exact List.not_mem_append (List.not_mem_append hnumber hmark) (by rwa [String.toList_ofList])

/-- Apart from white space at its end, a line is shown without the blanks at its start. -/
theorem numbered_line_append (line : Line) :
    ∃ trimmed, (numberedLine line).toList ++ trimmed =
        line.number.repr.toList ++ [' ', '|', ' '] ++ line.text.dropWhile (· == ' ') ∧
      ∀ c ∈ trimmed, Text.isSpace c := by
  obtain ⟨trimmed, htrimmed, hspace⟩ := Text.trim_end_append (line.text.dropWhile (· == ' '))
  have hmark : " | ".toList = [' ', '|', ' '] := rfl
  refine ⟨trimmed, ?_, hspace⟩
  unfold numberedLine
  rw [Text.drop_take_while, String.toList_append, String.toList_append, hmark,
    String.toList_ofList, List.append_assoc, htrimmed]

end Lines

/-- The report on a position between two characters points to the one that follows, unless this is a
blank. -/
theorem points_of_split {d : Diagnostic} {source : String} {before after : List Char}
    (hsource : source.toList = before ++ after)
    (hposition : d.position.offset = Text.byteLength before)
    (hafter : ∀ c, after.head? = some c → c ≠ ' ') (file : String) :
    ∃ line numbered pointer trimmed, d.Points source file line numbered pointer trimmed := by
  obtain ⟨line, front, head, tail, rest, hline, rfl, rfl, htext, hnumber, hoffset, hlies⟩ :=
    Line.at_split hsource
  rw [← hposition] at hline
  have hnext := hlies.head_tail htext hoffset
  have hcut : Text.splitAtByte? line.offset line.text = some (head, tail) := by
    rw [htext, hoffset]
    exact Text.split_at_byte_append head tail
  have hindent : (line.text.takeWhile (· == ' ')).length ≤ head.length := by
    rw [htext]
    refine Text.length_take_while_le fun c hc => beq_eq_false_iff_ne.2 ?_
    exact hafter c (hnext ▸ hc)
  obtain ⟨trimmed, hshown, hspace⟩ := numbered_line_append line
  have hpointer := to_list_pointer_line line
  have hcolumn : column line.text line.offset = head.length := by rw [column, hcut]
  rw [hcolumn] at hpointer
  -- what is shown before the position is as long as the pointer
  have hlength : (pointerLine line).length =
      line.number.repr.length + 3 + (head.length - (line.text.takeWhile (· == ' ')).length) := by
    rw [← String.length_toList, hpointer]
    simp only [List.length_append, List.length_replicate, List.length_cons, List.length_nil]
  have hbefore : (line.number.repr.toList ++ [' ', '|', ' '] ++
      head.drop (line.text.takeWhile (· == ' ')).length).length = (pointerLine line).length := by
    rw [hlength]
    simp only [List.length_append, List.length_drop, List.length_cons, List.length_nil,
      String.length_toList]
  have hsplit : (numberedLine line).toList ++ trimmed =
      line.number.repr.toList ++ [' ', '|', ' '] ++
        head.drop (line.text.takeWhile (· == ' ')).length ++ tail := by
    rw [hshown, ← Text.drop_take_while, List.append_assoc _ _ tail,
      ← List.drop_append_of_le_length hindent, ← htext]
  refine ⟨line, numberedLine line, pointerLine line, trimmed, hline, report_of_at hline file,
    numbered_line_one_line hlies, ?_, ?_, hshown, hspace, front, head, tail, rest,
    by rw [hsource]; simp only [List.append_assoc], htext, hnumber, hlies, ?_, hindent, hlength,
    ⟨_, hbefore, hsplit⟩, ?_⟩
  · rw [hpointer]
    simp [List.mem_replicate]
  · rw [hpointer]
    simp [List.mem_replicate]
  · rw [hposition, ← Text.byte_length_to_list, String.toList_ofList]
  · rw [hsplit, ← hbefore, List.getElem?_append_right (Nat.le_refl _), Nat.sub_self,
      ← List.head?_eq_getElem?, hnext]

end Diagnostic

/-- Every diagnostic of a source names the file of the compilation and stands at the start of a
token. Its report shows the line that holds this token, and points to the first character of the
token. -/
theorem compile_points (source file : String) (options : Options) :
    ∀ d ∈ (compile source options).diagnostics,
      d.position.file = options.fileName ∧
      (∃ token ∈ (Token.read source options.fileName).toList,
        d.position.offset = token.span.start.offset) ∧
      ∃ line numbered pointer trimmed, d.Points source file line numbered pointer trimmed := by
  intro d hd
  obtain ⟨token, htoken, hkind, habout⟩ := compile_about hd
  have hposition := habout.position_eq (Token.read_arranged source options.fileName) htoken
  obtain ⟨before, after, hsource, hstart, hafter⟩ := Token.start_split htoken hkind
  refine ⟨by rw [hposition, hstart], ⟨token, htoken, by rw [hposition]⟩, ?_⟩
  refine Diagnostic.points_of_split hsource (by rw [hposition, hstart]) (fun c hc => ?_) file
  rintro rfl
  exact absurd (hafter ' ' hc) (by decide)

/-- The invalid character after the blanks and the accented name of a second line. -/
theorem compile_points_accented :
    (⟨.unrecognisedSymbol, ⟨"<input>", 25⟩⟩ : Diagnostic) ∈
        (compile "let [é] = 1 in\n  [é] + #" {}).diagnostics ∧
      ∃ line numbered pointer trimmed, Diagnostic.Points ⟨.unrecognisedSymbol, ⟨"<input>", 25⟩⟩
        "let [é] = 1 in\n  [é] + #" "main" line numbered pointer trimmed := by
  have hmem : (⟨.unrecognisedSymbol, ⟨"<input>", 25⟩⟩ : Diagnostic) ∈
      (compile "let [é] = 1 in\n  [é] + #" {}).diagnostics := by decide +kernel
  exact ⟨hmem, (compile_points _ "main" {} _ hmem).2.2⟩

end LetScript

import LetScript.Source.Line
import Mathlib.Data.List.DropRight

/-!
# Lines by byte offset

`Line.at?` is correct at every byte offset, also at one inside a character, at a line feed or at the
end of the source. The line that it finds is told by the bytes around the offset: it reaches from
the last line feed before the offset to the next one at or after it (`Line.IsAt`), and one line for
each number gives back the source (`Line.at_offset`). Both rest on what `Line.find` does: it goes
through the lines that a text was cut into, up to the one that the offset lies in
(`Line.find_lies`).
-/

namespace LetScript

/-! ## Bytes -/

namespace Text

/-- The bytes of the UTF-8 encoding of a text. -/
def bytes (text : List Char) : List UInt8 := text.flatMap String.utf8EncodeChar

/-- The byte of a line feed. -/
def lineFeed : UInt8 := 10

@[simp] theorem bytes_nil : bytes [] = [] := rfl

@[simp] theorem bytes_append (first second : List Char) :
    bytes (first ++ second) = bytes first ++ bytes second :=
  List.flatMap_append

/-- The bytes of a source are those of its characters. -/
theorem bytes_to_list (source : String) : bytes source.toList = source.toByteArray.data.toList := by
  rw [← String.utf8Encode_toList, List.utf8Encode, List.toList_data_toByteArray, bytes]

@[simp] theorem length_bytes (text : List Char) : (bytes text).length = byteLength text := by
  induction text with
  | nil => rfl
  | cons c text ih =>
      rw [bytes, List.flatMap_cons, List.length_append, String.length_utf8EncodeChar,
        byte_length_cons, ← ih, bytes]

/-- The byte of a line feed encodes nothing else, and it is no part of a longer encoding. -/
theorem count_encode_char (c : Char) :
    (String.utf8EncodeChar c).count lineFeed = [c].count '\n' := by
  have hbyte (n : Nat) : (UInt8.ofNat n == lineFeed) = (n % 256 == 10) := by
    rw [Bool.eq_iff_iff, beq_iff_eq, beq_iff_eq, ← UInt8.toNat_inj, UInt8.toNat_ofNat']
    rfl
  have hchar : (c == '\n') = (c.val.toNat == 10) := by
    rw [Bool.eq_iff_iff, beq_iff_eq, beq_iff_eq]
    exact ⟨fun heq => heq ▸ rfl, fun heq => Char.ext (UInt32.toNat_inj.1 heq)⟩
  have hlead (n base bound : Nat) (hbase : 128 ≤ base) (hbound : 0 < bound ∧ base + bound ≤ 256) :
      (UInt8.ofNat (n % bound + base) == lineFeed) = false := by
    have hlt := Nat.mod_lt n hbound.1
    rw [hbyte, Nat.mod_eq_of_lt (by omega), beq_eq_false_iff_ne]
    omega
  rw [List.count_singleton, hchar, String.utf8EncodeChar]
  generalize c.val.toNat = n
  split
  next hle =>
    rw [List.count_singleton, hbyte, Nat.mod_eq_of_lt (by omega)]
  next hgt =>
    have hne : (n == 10) = false := beq_eq_false_iff_ne.2 (by omega)
    rw [hne, if_neg Bool.false_ne_true]
    repeat' split
    all_goals
      simp (disch := decide) only [List.count_cons, List.count_nil, hlead]
      rfl

/-- Line feeds may be counted in bytes. -/
theorem count_bytes (text : List Char) : (bytes text).count lineFeed = text.count '\n' := by
  induction text with
  | nil => rfl
  | cons c text ih =>
      have hcons : c :: text = [c] ++ text := rfl
      rw [hcons, bytes_append, List.count_append, List.count_append, ih]
      congr 1
      rw [← count_encode_char, bytes, List.flatMap_singleton]

/-- A text without line feeds has none among its bytes. -/
theorem line_feed_not_mem {text : List Char} (h : '\n' ∉ text) : lineFeed ∉ bytes text := by
  rw [← List.count_eq_zero, count_bytes]
  exact List.count_eq_zero.2 h

/-! ## Cutting into lines -/

/-- The lines of a text, cut after every line feed. No line is empty. -/
inductive CutIntoLines : List Char → List (List Char) → Prop where
  | none : CutIntoLines [] []
  | last {line : List Char} : line ≠ [] → '\n' ∉ line → CutIntoLines line [line]
  | cons {body rest : List Char} {lines : List (List Char)} : '\n' ∉ body →
      CutIntoLines rest lines → CutIntoLines (body ++ ['\n'] ++ rest) ((body ++ ['\n']) :: lines)

/-- No line is empty. -/
theorem CutIntoLines.ne_nil {text : List Char} {lines : List (List Char)}
    (h : CutIntoLines text lines) : ∀ line ∈ lines, line ≠ [] := by
  induction h with
  | none => exact fun _ hline => absurd hline List.not_mem_nil
  | last hne _ => exact List.forall_mem_singleton.2 hne
  | cons _ _ ih => exact List.forall_mem_cons.2 ⟨List.concat_ne_nil _ _, ih⟩

end Text

/-- A text is cut into its lines. -/
theorem split_lines_cut (text : List Char) : Text.CutIntoLines text (splitLines text) := by
  fun_induction splitLines text with
  | case1 => exact .none
  | case2 c text h =>
      refine .last (List.cons_ne_nil c text) fun hmem => ?_
      have hkeep := List.dropWhile_eq_nil_iff.1 h _ hmem
      simp at hkeep
  | case3 c text newline rest h ih =>
      have hnewline : newline = '\n' := by
        have hstop := List.head?_dropWhile_not (· ≠ '\n') (c :: text)
        rw [h] at hstop
        simpa using hstop
      subst hnewline
      have hbody : '\n' ∉ (c :: text).takeWhile (· ≠ '\n') := fun hmem => by
        simpa using List.mem_takeWhile_imp hmem
      have hsplit : (c :: text).takeWhile (· ≠ '\n') ++ ['\n'] ++ rest = c :: text := by
        rw [List.append_assoc, List.singleton_append, ← h]
        exact List.takeWhile_append_dropWhile
      have hcut := Text.CutIntoLines.cons hbody ih
      rwa [hsplit] at hcut

namespace Line

/-! ## Finding a line -/

/-- Where a line lies, between the part of the text before it and the part after it: it starts at
the start of the text or after a line feed, and ends with its only line feed or at the end of the
text. The offset into it is one of its bytes, or the end of a text without a last line feed. -/
structure Lies (front rest : List Char) (line : Line) : Prop where
  starts : ∀ c, front.getLast? = some c → c = '\n'
  ends : (∃ body, line.text = body ++ ['\n'] ∧ '\n' ∉ body ∧
      line.offset < Text.byteLength line.text) ∨
    '\n' ∉ line.text ∧ rest = [] ∧ line.offset ≤ Text.byteLength line.text

/-- The line that is found lies around the offset, and its number counts the line feeds before
it. -/
theorem find_lies {text : List Char} {lines : List (List Char)} (h : Text.CutIntoLines text lines)
    (number : Nat) {offset : Nat} (hoffset : offset ≤ Text.byteLength text) :
    ∃ front rest, text = front ++ ((find number offset lines).text ++ rest) ∧
      (find number offset lines).number = number + front.count '\n' ∧
      offset = Text.byteLength front + (find number offset lines).offset ∧
      (find number offset lines).Lies front rest := by
  have hnil : ∀ c, ([] : List Char).getLast? = some c → c = '\n' := fun _ hc => by cases hc
  induction h generalizing number offset with
  | none =>
      obtain rfl : offset = 0 := Nat.le_zero.1 hoffset
      exact ⟨[], [], rfl, rfl, rfl, hnil, .inr ⟨List.not_mem_nil, rfl, Nat.le_refl _⟩⟩
  | @last line hne hline =>
      have hlast : line.getLast? ≠ some '\n' := fun hlast => hline (List.mem_of_getLast? hlast)
      have hfind : find number offset [line] = ⟨number, line, offset⟩ := by
        rcases Nat.lt_or_eq_of_le hoffset with hlt | heq
        · simp [find, hlt]
        · simp [find, heq, hlast]
      rw [hfind]
      exact ⟨[], [], (List.append_nil line).symm, rfl, (Nat.zero_add _).symm, hnil,
        .inr ⟨hline, rfl, hoffset⟩⟩
  | @cons body rest lines hbody _ ih =>
      have hlast : (body ++ ['\n']).getLast? = some '\n' := List.getLast?_concat
      by_cases hlt : offset < Text.byteLength (body ++ ['\n'])
      · have hfind : find number offset ((body ++ ['\n']) :: lines) =
            ⟨number, body ++ ['\n'], offset⟩ := by
          unfold find
          simp only [hlt, decide_true, Bool.true_or, if_true]
        rw [hfind]
        exact ⟨[], rest, rfl, rfl, (Nat.zero_add _).symm, hnil, .inl ⟨body, rfl, hbody, hlt⟩⟩
      · have hfind : find number offset ((body ++ ['\n']) :: lines) =
            find (number + 1) (offset - Text.byteLength (body ++ ['\n'])) lines := by
          rw [find]
          simp only [hlt, hlast, decide_false, Bool.false_or, bne_self_eq_false, Bool.and_false,
            Bool.false_eq_true, if_false]
        have hrest : offset - Text.byteLength (body ++ ['\n']) ≤ Text.byteLength rest := by
          rw [Text.byte_length_append] at hoffset
          omega
        obtain ⟨front, after, htext, hnumber, hstart, hlies⟩ := ih (number + 1) hrest
        rw [hfind]
        refine ⟨body ++ ['\n'] ++ front, after, ?_, ?_, ?_, ?_, hlies.ends⟩
        · conv => lhs; rw [htext]
          rw [List.append_assoc (body ++ ['\n'])]
        · rw [hnumber, List.count_append, List.count_append, List.count_eq_zero.2 hbody,
            List.count_singleton_self]
          omega
        · rw [Text.byte_length_append, Nat.add_assoc, ← hstart]
          omega
        · intro c hc
          rw [List.getLast?_append] at hc
          cases hfront : front.getLast? with
          | none =>
              rw [hfront, Option.none_or, hlast] at hc
              exact (Option.some.inj hc).symm
          | some d =>
              rw [hfront, Option.some_or] at hc
              exact hlies.starts c (hfront.trans hc)

/-! ## The line at an offset -/

/-- A line is the one at a byte offset of a source. Its number is one more than that of the line
feeds before the offset. It starts after the last line feed before the offset, or where the source
starts, and ends with the next line feed at or after the offset, or where the source ends. The
offset into it is counted from its start. -/
structure IsAt (bytes : List UInt8) (offset : Nat) (line : Line) : Prop where
  number_eq : line.number = 1 + (bytes.take offset).count Text.lineFeed
  text_eq : Text.bytes line.text =
    (bytes.take offset).rtakeWhile (· ≠ Text.lineFeed) ++
      (bytes.drop offset).take ((bytes.drop offset).idxOf Text.lineFeed + 1)
  offset_eq : line.offset = ((bytes.take offset).rtakeWhile (· ≠ Text.lineFeed)).length

section Bytes

open Text

/-- After the bytes of whole lines, the bytes without a line feed are those of a line. -/
theorem rtake_while_line {front : List Char} (hfront : ∀ c, front.getLast? = some c → c = '\n')
    {before : List UInt8} (hbefore : lineFeed ∉ before) :
    (Text.bytes front ++ before).rtakeWhile (· ≠ lineFeed) = before := by
  have hnone : (Text.bytes front).reverse.takeWhile (· ≠ lineFeed) = [] := by
    cases hlast : front.getLast? with
    | none => rw [List.getLast?_eq_none_iff.1 hlast]; rfl
    | some c =>
        obtain ⟨init, rfl⟩ := List.getLast?_eq_some_iff.1 hlast
        rw [hfront c hlast, bytes_append, List.reverse_append]
        rfl
  have hkeep : ∀ byte ∈ before.reverse, decide (byte ≠ lineFeed) = true := by
    intro byte hbyte
    refine decide_eq_true fun heq => hbefore ?_
    exact heq ▸ List.mem_reverse.1 hbyte
  rw [List.rtakeWhile, List.reverse_append, List.takeWhile_append_of_pos hkeep, hnone,
    List.append_nil, List.reverse_reverse]

/-- The bytes up to a line feed. -/
theorem take_through_line_feed {body : List UInt8} (hbody : lineFeed ∉ body) (more : List UInt8) :
    (body ++ lineFeed :: more).take ((body ++ lineFeed :: more).idxOf lineFeed + 1) =
      body ++ [lineFeed] := by
  rw [List.idxOf_append_of_notMem hbody, List.idxOf_cons_self, Nat.add_zero,
    List.take_length_add_append, List.take_succ_cons, List.take_zero]

/-- The bytes up to the end, where no line feed follows. -/
theorem take_through_end {body : List UInt8} (hbody : lineFeed ∉ body) :
    body.take (body.idxOf lineFeed + 1) = body := by
  rw [List.idxOf_eq_length hbody]
  exact List.take_of_length_le (Nat.le_succ _)

/-- A line that lies around an offset is the one at the offset. -/
theorem Lies.is_at {front rest : List Char} {line : Line} (h : line.Lies front rest)
    (hnumber : line.number = 1 + front.count '\n') :
    line.IsAt (Text.bytes (front ++ (line.text ++ rest))) (byteLength front + line.offset) := by
  have hle : line.offset ≤ (Text.bytes line.text).length := by
    rw [length_bytes]
    rcases h.ends with ⟨body, -, -, hlt⟩ | ⟨-, -, hle⟩
    · exact Nat.le_of_lt hlt
    · exact hle
  have htake : (Text.bytes (front ++ (line.text ++ rest))).take (byteLength front + line.offset) =
      Text.bytes front ++ (Text.bytes line.text).take line.offset := by
    rw [bytes_append, bytes_append, ← length_bytes, List.take_length_add_append,
      List.take_append_of_le_length hle]
  have hdrop : (Text.bytes (front ++ (line.text ++ rest))).drop (byteLength front + line.offset) =
      (Text.bytes line.text).drop line.offset ++ Text.bytes rest := by
    rw [bytes_append, bytes_append, ← length_bytes, List.drop_length_add_append,
      List.drop_append_of_le_length hle]
  -- the bytes of the line before the offset have no line feed, and those after it end with one
  have haround : lineFeed ∉ (Text.bytes line.text).take line.offset ∧
      ((Text.bytes line.text).drop line.offset ++ Text.bytes rest).take
        (((Text.bytes line.text).drop line.offset ++ Text.bytes rest).idxOf lineFeed + 1) =
          (Text.bytes line.text).drop line.offset := by
    rcases h.ends with ⟨body, htext, hbody, hlt⟩ | ⟨hline, rfl, -⟩
    · have hbody := line_feed_not_mem hbody
      have hbytes : Text.bytes line.text = Text.bytes body ++ [lineFeed] := by
        rw [htext, bytes_append]
        rfl
      have hshort : line.offset ≤ (Text.bytes body).length := by
        rw [← length_bytes, hbytes, List.length_append, List.length_singleton] at hlt
        omega
      rw [hbytes, List.take_append_of_le_length hshort, List.drop_append_of_le_length hshort,
        List.append_assoc, List.singleton_append]
      exact ⟨fun hmem => hbody (List.mem_of_mem_take hmem),
        take_through_line_feed (fun hmem => hbody (List.mem_of_mem_drop hmem)) _⟩
    · have hline := line_feed_not_mem hline
      rw [bytes_nil, List.append_nil]
      exact ⟨fun hmem => hline (List.mem_of_mem_take hmem),
        take_through_end fun hmem => hline (List.mem_of_mem_drop hmem)⟩
  obtain ⟨hbefore, hafter⟩ := haround
  have hhead := rtake_while_line h.starts hbefore
  constructor
  · rw [htake, List.count_append, count_bytes, List.count_eq_zero.2 hbefore, hnumber, Nat.add_zero]
  · rw [htake, hdrop, hhead, hafter, List.take_append_drop]
  · rw [htake, hhead, List.length_take, Nat.min_eq_left hle]

end Bytes

/-! ## One line for each number -/

/-- A line that is found is one of the given lines, or the empty one after them. -/
theorem find_index (number offset : Nat) (lines : List (List Char)) :
    ∃ index ≤ lines.length, (find number offset lines).number = number + index ∧
      (find number offset lines).text = lines[index]?.getD [] := by
  induction lines generalizing number offset with
  | nil => exact ⟨0, Nat.le_refl _, rfl, rfl⟩
  | cons line lines ih =>
      rw [find]
      split
      next => exact ⟨0, Nat.zero_le _, rfl, rfl⟩
      next =>
        obtain ⟨index, hle, hnumber, htext⟩ := ih (number + 1) (offset - Text.byteLength line)
        refine ⟨index + 1, Nat.succ_le_succ hle, ?_, ?_⟩
        · rw [hnumber]
          omega
        · rw [htext, List.getElem?_cons_succ]

/-- Each of the given lines is found at some offset. -/
theorem exists_find {lines : List (List Char)} (hne : ∀ line ∈ lines, line ≠ []) (number : Nat)
    {index : Nat} (hindex : index < lines.length) :
    ∃ offset ≤ Text.byteLength lines.flatten,
      (find number offset lines).number = number + index := by
  induction lines generalizing number index with
  | nil => exact absurd hindex (Nat.not_lt_zero _)
  | cons line lines ih =>
      obtain ⟨hline, hlines⟩ := List.forall_mem_cons.1 hne
      cases index with
      | zero =>
          refine ⟨0, Nat.zero_le _, ?_⟩
          have hpos : 0 < Text.byteLength line := by
            obtain ⟨c, rest, rfl⟩ := List.exists_cons_of_ne_nil hline
            have hc := c.utf8Size_pos
            rw [Text.byte_length_cons]
            omega
          simp [find, hpos]
      | succ index =>
          have hindex := Nat.lt_of_succ_lt_succ hindex
          obtain ⟨offset, hle, hnumber⟩ := ih hlines (number + 1) hindex
          have hmore : lines.isEmpty = false :=
            List.isEmpty_eq_false_iff.2 (List.ne_nil_of_length_pos (Nat.zero_lt_of_lt hindex))
          refine ⟨Text.byteLength line + offset, ?_, ?_⟩
          · rw [List.flatten_cons, Text.byte_length_append]
            omega
          · rw [find]
            simp only [hmore, Bool.false_and, Bool.or_false, decide_eq_true_eq]
            rw [if_neg (by omega), Nat.add_sub_cancel_left, hnumber]
            omega

/-- One line for each number, in order, gives back the text. -/
theorem flat_map_text {texts : List (List Char)} {number : Nat} {lines : List Line}
    (hordered : lines.Pairwise (·.number < ·.number))
    (hindex : ∀ line ∈ lines, ∃ index ≤ texts.length, line.number = number + index ∧
      line.text = texts[index]?.getD [])
    (hall : ∀ index < texts.length, ∃ line ∈ lines, line.number = number + index) :
    lines.flatMap Line.text = texts.flatten := by
  induction texts generalizing number lines with
  | nil =>
      refine List.flatMap_eq_nil_iff.2 fun line hline => ?_
      obtain ⟨index, -, -, htext⟩ := hindex line hline
      rw [htext]
      rfl
  | cons text texts ih =>
      obtain ⟨least, hleast, hnumber⟩ := hall 0 (Nat.zero_lt_succ _)
      cases lines with
      | nil => exact absurd hleast List.not_mem_nil
      | cons first lines =>
          obtain ⟨hfirst, hordered⟩ := List.pairwise_cons.1 hordered
          obtain ⟨index, -, hfirstNumber, hfirstText⟩ := hindex first (List.mem_cons_self ..)
          -- the first line has the least number, so it has the first text
          have hzero : index = 0 := by
            rcases List.mem_cons.1 hleast with rfl | hmem
            · omega
            · have hlt := hfirst least hmem
              omega
          subst hzero
          have hlater : ∀ line ∈ lines, ∃ index ≤ texts.length,
              line.number = number + 1 + index ∧ line.text = texts[index]?.getD [] := by
            intro line hline
            obtain ⟨index, hle, hlineNumber, hlineText⟩ :=
              hindex line (List.mem_cons_of_mem _ hline)
            have hgt := hfirst line hline
            cases index with
            | zero => omega
            | succ index =>
                refine ⟨index, Nat.le_of_succ_le_succ hle, by omega, ?_⟩
                rw [hlineText, List.getElem?_cons_succ]
          have hothers : ∀ index < texts.length, ∃ line ∈ lines,
              line.number = number + 1 + index := by
            intro index hlt
            obtain ⟨line, hline, hlineNumber⟩ := hall (index + 1) (Nat.succ_lt_succ hlt)
            rcases List.mem_cons.1 hline with rfl | hline
            · omega
            · exact ⟨line, hline, by omega⟩
          rw [List.flatMap_cons, List.flatten_cons, ih hordered hlater hothers, hfirstText]
          rfl

/-- Past the end of a source there is no line. -/
theorem at_eq_none_iff {source : String} {offset : Nat} :
    at? source offset = none ↔ source.utf8ByteSize < offset := by
  unfold at? inLines?
  split <;> simp [*]

/-- Up to the end of a source, the line is found among those that the source is cut into. -/
theorem at_eq_some {source : String} {offset : Nat} (h : offset ≤ source.utf8ByteSize) :
    at? source offset = some (find 1 offset (splitLines source.toList)) :=
  if_neg (Nat.not_lt.2 h)

/-- Up to the end of a source there is a line around each offset. -/
theorem at_lies {source : String} {offset : Nat} (h : offset ≤ source.utf8ByteSize) :
    ∃ line front rest, at? source offset = some line ∧
      source.toList = front ++ (line.text ++ rest) ∧ line.number = 1 + front.count '\n' ∧
      offset = Text.byteLength front + line.offset ∧ line.Lies front rest := by
  rw [← Text.byte_length_to_list] at h
  obtain ⟨front, rest, hfound⟩ := find_lies (split_lines_cut source.toList) 1 h
  rw [Text.byte_length_to_list] at h
  exact ⟨_, front, rest, at_eq_some h, hfound⟩

/-- The line at a byte offset. There is none exactly past the end of the source. At any other offset
it is told by the bytes around the offset, and lines found at some offsets, one for each number that
is found at any offset, give back the source. -/
theorem at_offset (source : String) :
    (∀ offset, at? source offset = none ↔ source.toByteArray.data.toList.length < offset) ∧
    (∀ offset ≤ source.toByteArray.data.toList.length, ∃ line,
      at? source offset = some line ∧ line.IsAt source.toByteArray.data.toList offset) ∧
    ∀ lines : List Line, lines.Pairwise (·.number < ·.number) →
      (∀ line ∈ lines, ∃ offset, at? source offset = some line) →
      (∀ offset line, at? source offset = some line → ∃ other ∈ lines, other.number = line.number) →
      String.ofList (lines.flatMap Line.text) = source := by
  have hsize : source.toByteArray.data.toList.length = source.utf8ByteSize := by
    rw [← Text.bytes_to_list, Text.length_bytes, Text.byte_length_to_list]
  rw [hsize]
  refine ⟨fun offset => at_eq_none_iff, fun offset hoffset => ?_,
    fun lines hordered hfound hall => ?_⟩
  · obtain ⟨line, front, rest, hline, hsource, hnumber, rfl, hlies⟩ := at_lies hoffset
    refine ⟨line, hline, ?_⟩
    rw [← Text.bytes_to_list, hsource]
    exact hlies.is_at hnumber
  · have hindex : ∀ line ∈ lines, ∃ index ≤ (splitLines source.toList).length,
        line.number = 1 + index ∧ line.text = (splitLines source.toList)[index]?.getD [] := by
      intro line hline
      obtain ⟨offset, hoffset⟩ := hfound line hline
      have hle : offset ≤ source.utf8ByteSize := by
        refine Nat.le_of_not_lt fun hlt => ?_
        rw [at_eq_none_iff.2 hlt] at hoffset
        cases hoffset
      rw [at_eq_some hle] at hoffset
      obtain rfl := Option.some.inj hoffset
      exact find_index 1 offset _
    have hnumbers : ∀ index < (splitLines source.toList).length, ∃ line ∈ lines,
        line.number = 1 + index := by
      intro index hlt
      obtain ⟨offset, hle, hnumber⟩ := exists_find (split_lines_cut source.toList).ne_nil 1 hlt
      rw [flatten_split_lines, Text.byte_length_to_list] at hle
      obtain ⟨other, hother, heq⟩ := hall offset _ (at_eq_some hle)
      exact ⟨other, hother, heq.trans hnumber⟩
    rw [flat_map_text hordered hindex hnumbers, flatten_split_lines, String.ofList_toList]

/-- Two lines give back a source, whichever offset each was found at. The first one is found inside
its accented letter. -/
theorem at_offset_accented :
    let lines : List Line := [⟨1, ['é', '\n'], 1⟩, ⟨2, ['b'], 0⟩]
    lines.Pairwise (·.number < ·.number) ∧
      (∀ line ∈ lines, ∃ offset, at? "é\nb" offset = some line) ∧
      (∀ offset line, at? "é\nb" offset = some line → ∃ other ∈ lines, other.number = line.number) ∧
      String.ofList (lines.flatMap Line.text) = "é\nb" := by
  intro lines
  have hordered : lines.Pairwise (·.number < ·.number) := by decide
  have hfound : ∀ line ∈ lines, ∃ offset, at? "é\nb" offset = some line :=
    List.forall_mem_cons.2 ⟨⟨1, by decide +kernel⟩,
      List.forall_mem_singleton.2 ⟨3, by decide +kernel⟩⟩
  have hall : ∀ offset line, at? "é\nb" offset = some line →
      ∃ other ∈ lines, other.number = line.number := by
    have hnumbers : ∀ offset < 5, (at? "é\nb" offset).map Line.number ∈ [some 1, some 2] := by
      decide +kernel
    intro offset line hline
    have hlt : offset < 5 := by
      refine Nat.lt_of_not_le fun hle => ?_
      rw [at_eq_none_iff.2 (show "é\nb".utf8ByteSize < offset from hle)] at hline
      cases hline
    have hnumber := hnumbers offset hlt
    rw [hline] at hnumber
    simp only [Option.map_some, List.mem_cons, Option.some.injEq, List.not_mem_nil,
      or_false] at hnumber
    rcases hnumber with heq | heq
    · exact ⟨_, List.mem_cons_self .., heq.symm⟩
    · exact ⟨_, List.mem_cons_of_mem _ (List.mem_cons_self ..), heq.symm⟩
  exact ⟨hordered, hfound, hall, (at_offset "é\nb").2.2 lines hordered hfound hall⟩

end Line

end LetScript

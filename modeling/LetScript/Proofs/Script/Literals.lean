import LetScript.Proofs.Script.Words

/-!
# String literals end where they should

A string literal of the generated code may hold any text of a program, and anything may follow it.
`JavaScript.readString?` reads one literal from the front of a text, by the rules of the scanner: it
gives the text that the literal stands for and what comes after the closing quote. The literal for a
text is read as this text whatever follows (`read_string_literal`), and reading needs the whole of
it, so no text closes its own literal (`string_literal_decodes`).
-/

namespace LetScript

namespace JavaScript

/-- Read the rest of a string literal: the text it stands for, and what follows the closing
quote. -/
def Mode.finishString? : Mode → List Char → Option (String × List Char)
  | _, [] => none
  | mode, c :: chars =>
    match mode.step c with
    | some ([.string text], _) => some (text, chars)
    | some ([], next) => next.finishString? chars
    | _ => none

/-- Read one string literal from the front of a text. -/
def readString? (text : String) : Option (String × String) :=
  match text.toList with
  | '"' :: chars => ((Mode.string []).finishString? chars).map fun (value, rest) =>
    (value, String.ofList rest)
  | _ => none

namespace Mode

variable {mode mode' : Mode} {chars rest : List Char} {text : String}

/-- Characters at which no token ends belong to the literal. -/
theorem finish_string_of_run (h : mode.run chars = some ([], mode')) (rest : List Char) :
    mode.finishString? (chars ++ rest) = mode'.finishString? rest := by
  induction chars generalizing mode with
  | nil =>
      obtain ⟨-, rfl⟩ := Prod.mk.inj (Option.some.inj h)
      rfl
  | cons c chars ih =>
      simp only [run, Option.bind_eq_bind, Option.bind_eq_some_iff, Prod.exists] at h
      obtain ⟨first, next, hstep, tokens, last, hrun, heq⟩ := h
      obtain ⟨hnil, rfl⟩ := Prod.mk.inj (Option.some.inj heq)
      obtain ⟨rfl, rfl⟩ := List.append_eq_nil_iff.1 hnil
      rw [List.cons_append, finishString?, hstep]
      exact ih hrun

/-- A literal that has been read is read alike when more follows. -/
theorem finish_string_append (h : mode.finishString? chars = some (text, rest))
    (more : List Char) : mode.finishString? (chars ++ more) = some (text, rest ++ more) := by
  induction chars generalizing mode with
  | nil => cases h
  | cons c chars ih =>
      rw [finishString?] at h
      rw [List.cons_append, finishString?]
      split at h
      next =>
        obtain ⟨rfl, rfl⟩ := Prod.mk.inj (Option.some.inj h)
        rfl
      next => exact ih h
      next => cases h

end Mode

/-- A text that starts with a literal is read alike when more follows. -/
theorem read_string_append {text value rest : String} (h : readString? text = some (value, rest))
    (more : String) : readString? (text ++ more) = some (value, rest ++ more) := by
  unfold readString? at h
  split at h
  next chars htext =>
    obtain ⟨⟨found, after⟩, hfound, heq⟩ := Option.map_eq_some_iff.1 h
    obtain ⟨rfl, rfl⟩ := Prod.mk.inj heq
    have hmore := Mode.finish_string_append hfound more.toList
    simp [readString?, String.toList_append, htext, hmore, String.ofList_append]
  next => cases h

end JavaScript

namespace Script

open JavaScript

/-- The literal for a text is read as this text, whatever follows. -/
theorem read_string_literal (text rest : String) :
    readString? (stringLiteral text ++ rest) = some (text, rest) := by
  have hlist : (stringLiteral text ++ rest).toList =
      '"' :: (text.toList.flatMap literalChar ++ '"' :: rest.toList) := by
    simp [stringLiteral, String.toList_append]
  have hchars := Mode.finish_string_of_run (run_literal_chars [] text.toList) ('"' :: rest.toList)
  have hclose : (Mode.string text.toList).finishString? ('"' :: rest.toList) =
      some (text, rest.toList) := by
    simp [Mode.finishString?, Mode.step]
  rw [List.nil_append, hclose] at hchars
  simp [readString?, hlist, hchars]

/-! ## Characters of a literal -/

/-- A character that is neither a control character nor ends a line. -/
def isPrinted (c : Char) : Bool := 0x20 ≤ c.toNat && c ∉ ['\u2028', '\u2029']

/-- The characters of plain names are printed. -/
theorem is_printed_of_plain {c : Char} (h : isPlainPart c) : isPrinted c := by
  have hcontrol : ∀ n < 0x20, isPlainPart (Char.ofNat n) = false := by decide
  have hle : 0x20 ≤ c.toNat := Nat.le_of_not_lt fun hlt => by
    have hother := hcontrol c.toNat hlt
    rw [Char.ofNat_toNat, h] at hother
    cases hother
  have hmem : c ∉ ['\u2028', '\u2029'] := by
    intro hmem
    rcases List.mem_cons.1 hmem with rfl | hmem
    · cases h
    · obtain rfl := List.mem_singleton.1 hmem
      cases h
  simp [isPrinted, hle, hmem]

/-- An escape with the code point of a character is printed. -/
theorem is_printed_unicode_escape {c d : Char} (h : d ∈ unicodeEscape c) : isPrinted d := by
  unfold unicodeEscape Text.hexFilled at h
  rcases List.mem_cons.1 h with rfl | h
  · rfl
  · rcases List.mem_cons.1 h with rfl | h
    · rfl
    · rcases List.mem_append.1 h with h | h
      · exact List.eq_of_mem_replicate h ▸ rfl
      · exact is_printed_of_plain (plain_of_mem_hex h)

/-- A character of a text is printed inside a literal. -/
theorem is_printed_literal_char {c d : Char} (h : d ∈ literalChar c) : isPrinted d := by
  have hescape {e : Char} (he : isPrinted e) (hd : d ∈ ['\\', e]) : isPrinted d := by
    rcases List.mem_cons.1 hd with rfl | hd
    · rfl
    · exact List.mem_singleton.1 hd ▸ he
  unfold literalChar at h
  split at h
  · exact hescape rfl h
  · exact hescape rfl h
  · exact hescape rfl h
  · exact hescape rfl h
  · exact hescape rfl h
  · exact is_printed_unicode_escape h
  · exact is_printed_unicode_escape h
  next hline hparagraph =>
    split at h
    next => exact is_printed_unicode_escape h
    next hcontrol =>
      obtain rfl := List.mem_singleton.1 h
      have hle := Nat.le_of_not_lt hcontrol
      have hmem : d ∉ ['\u2028', '\u2029'] := by
        simp only [List.mem_cons, List.not_mem_nil, or_false, not_or]
        exact ⟨hline, hparagraph⟩
      simp [isPrinted, hle, hmem]

/-- All characters of a literal are printed. -/
theorem is_printed_string_literal {text : String} {c : Char} (h : c ∈ (stringLiteral text).toList) :
    isPrinted c := by
  rw [stringLiteral, String.toList_ofList, List.cons_append] at h
  rcases List.mem_cons.1 h with rfl | h
  · rfl
  · rcases List.mem_append.1 h with h | h
    · obtain ⟨d, -, hd⟩ := List.mem_flatMap.1 h
      exact is_printed_literal_char hd
    · exact List.mem_singleton.1 h ▸ rfl

/-- String literals can be decoded in any context. The literal for a text is read as this text, up
to where the literal ends, whatever follows. It has no control characters and no ends of lines, and
no proper part at its front is a literal, so no text can end its literal early. -/
theorem string_literal_decodes (text rest : String) :
    readString? (stringLiteral text ++ rest) = some (text, rest) ∧
      (∀ c ∈ (stringLiteral text).toList, 0x20 ≤ c.toNat ∧ c ∉ ['\u2028', '\u2029']) ∧
      ∀ front back, stringLiteral text = front ++ back → back ≠ "" → readString? front = none := by
  refine ⟨read_string_literal text rest, fun c hc => ?_, ?_⟩
  · simpa [isPrinted] using is_printed_string_literal hc
  intro front back hsplit hback
  cases hread : readString? front with
  | none => rfl
  | some found =>
      -- a literal at the front would be the whole one, with something left over
      obtain ⟨value, after⟩ := found
      have hwhole := read_string_literal text ""
      rw [String.append_empty, hsplit, read_string_append hread back] at hwhole
      obtain ⟨-, hempty⟩ := Prod.mk.inj (Option.some.inj hwhole)
      exact absurd (String.append_eq_empty_iff.1 hempty).2 hback

end Script

end LetScript

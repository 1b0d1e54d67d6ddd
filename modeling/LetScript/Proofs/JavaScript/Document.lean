import LetScript.Proofs.JavaScript.Scanner
import LetScript.Proofs.Layout.Lines

/-!
# Scanning documents

A document that is written at any level of indentation has the same tokens. This is stated by
triples: from every mode of one phase the characters of a document have some tokens, and the scanner
is in a mode of another phase after them (`Doc.Scans`). The triples of two documents compose, and
the last token of a document may stay open until the first character of the next.
-/

namespace LetScript

namespace JavaScript

/-! ## Phases of the scanner -/

/-- Where the scanner is in a text of generated code. -/
inductive Phase where
  /-- Between tokens, where anything may come next. -/
  | between
  /-- Before an operand, perhaps directly after an operator or a keyword. -/
  | opening
  /-- After an operand, whose last token may still be open. -/
  | ended

/-- The modes of a phase. -/
inductive Mode.At : Phase → Mode → Prop
  | between : At .between .idle
  | blank (restricted : Bool) : At .opening (.blank restricted)
  | operator {c : Char} : c ∈ operators.map (·.1) → At .opening (.operator c)
  | idle : At .ended .idle
  | word {text : List Char} {name : String} :
      Token.ofWord? text = some (.name name) → At .ended (.word text)
  | property (text : List Char) : At .ended (.property text)
  | whole (digits : List Char) : At .ended (.whole digits)
  | fraction (whole : List Char) {digits : List Char} :
      digits ≠ [] → At .ended (.fraction whole digits)

/-- The token that is still open in a mode. -/
def Mode.pending (mode : Mode) : List Token := mode.pending?.getD []

/-- The open token at the end of an operand may end there. -/
theorem Mode.At.pending_eq {mode : Mode} (h : mode.At .ended) :
    mode.pending? = some mode.pending := by
  cases h with
  | idle => rfl
  | word hword => simp [pending, pending?, hword]
  | property text => rfl
  | whole digits => rfl
  | fraction whole hdigits => simp [pending, pending?, hdigits]

/-- The characters that end every operand. -/
def delimiters : List Char := ' ' :: '\n' :: marks

/-- A delimiter ends the open token of an operand. -/
theorem Mode.At.step_delimiter {mode : Mode} (h : mode.At .ended) {c : Char}
    (hc : c ∈ delimiters) :
    mode.step c = (Mode.idle.step c).map fun (tokens, next) => (mode.pending ++ tokens, next) := by
  have hother : delimiters.any (fun c => isNamePart c || isNameStart c || c.isDigit || c == '.') =
      false := rfl
  obtain ⟨⟨⟨hpart, hstart⟩, hdigit⟩, hpoint⟩ : ((isNamePart c = false ∧ isNameStart c = false) ∧
      c.isDigit = false) ∧ c ≠ '.' := by
    simpa using List.any_eq_false.1 hother c hc
  have hclose (token : Token) (htoken : token.isRestricted = false)
      (hstep : mode.step c = close token c) (hpending : mode.pending = [token]) :
      mode.step c =
        (Mode.idle.step c).map fun (tokens, next) => (mode.pending ++ tokens, next) := by
    rw [hstep, hpending, close, htoken]
    rfl
  cases h with
  | idle => cases hstep : Mode.idle.step c <;> simp [pending, pending?]
  | @word text name hword =>
      exact hclose (.name name) rfl (by simp [step, hpart, hword])
        (by simp [pending, pending?, hword])
  | property text => exact hclose _ rfl (by simp [step, hpart]) rfl
  | whole digits => exact hclose _ rfl (by simp [step, hstart, hdigit, hpoint]) rfl
  | @fraction whole digits hdigits =>
      exact hclose (.ofDigits whole digits) rfl (by simp [step, hstart, hdigit, hpoint, hdigits])
        (by simp [pending, pending?, hdigits])

/-- A character with which an operand starts. -/
def isOperandStart (c : Char) : Bool := isNameStart c || c.isDigit || c == '('

/-- The start of an operand is read alike in all places before an operand. -/
theorem Mode.At.step_operand_start {mode : Mode} (h : mode.At .opening) {c : Char}
    (hc : isOperandStart c) : mode.step c = Mode.idle.step c := by
  have hspecial : ([' ', '\n', '=', '*', '>'] ++ operators.map (·.1)).any isOperandStart = false :=
    rfl
  have hne {d : Char} (hd : d ∈ [' ', '\n', '=', '*', '>'] ++ operators.map (·.1)) : c ≠ d := by
    rintro rfl
    exact List.any_eq_false.1 hspecial c hd hc
  have hnext (restricted : Bool) : next restricted c = start c := by
    rw [next, if_neg (hne (by decide)), if_neg (hne (by decide))]
  cases h with
  | blank restricted => simp only [step, hnext]
  | @operator o hmem =>
      have hjoins : joins o c = false := by
        simp only [joins, Bool.or_eq_false_iff, Bool.and_eq_false_iff, beq_eq_false_iff_ne]
        exact ⟨⟨⟨hne (by decide), hne (List.mem_append_right _ hmem)⟩, .inr (hne (by decide))⟩,
          .inr (hne (by decide))⟩
      simp [step, hjoins]

/-! ## Texts -/

/-- From every mode of a phase some characters have some tokens, and another phase follows. An open
token at the front comes before them, and the last of them may still be open. -/
def Scans (before : Phase) (chars : List Char) (tokens : List Token) (after : Phase) : Prop :=
  ∀ mode : Mode, mode.At before → ∃ found mode', mode.run chars = some (found, mode') ∧
    mode'.At after ∧ mode.pending ++ tokens = found ++ mode'.pending

namespace Scans

variable {before middle after : Phase} {chars chars' : List Char} {tokens tokens' : List Token}

/-- No characters have no tokens. -/
theorem nil (phase : Phase) : Scans phase [] [] phase :=
  fun mode hmode => ⟨[], mode, rfl, hmode, List.append_nil _⟩

/-- Texts one after the other. -/
theorem append (h : Scans before chars tokens middle) (h' : Scans middle chars' tokens' after) :
    Scans before (chars ++ chars') (tokens ++ tokens') after := by
  intro mode hmode
  obtain ⟨found, mode', hrun, hmode', heq⟩ := h mode hmode
  obtain ⟨found', mode'', hrun', hmode'', heq'⟩ := h' mode' hmode'
  refine ⟨found ++ found', mode'', Mode.run_append hrun hrun', hmode'', ?_⟩
  rw [← List.append_assoc, heq, List.append_assoc, heq', List.append_assoc]

/-- The tokens of a text between other tokens. -/
theorem of_run {mode : Mode} (hmode : mode.At after)
    (h : (Mode.idle.run chars).map (fun (found, last) => (found ++ last.pending, last)) =
      some (tokens, mode)) : Scans .between chars tokens after := by
  intro start hstart
  cases hstart
  obtain ⟨⟨found, last⟩, hrun, heq⟩ := Option.map_eq_some_iff.1 h
  obtain ⟨rfl, rfl⟩ := Prod.mk.inj heq
  exact ⟨found, last, hrun, hmode, rfl⟩

/-- A text that starts with an operand is scanned alike in all places before an operand. -/
theorem opening {c : Char} (h : Scans .between (c :: chars) tokens after)
    (hc : isOperandStart c) : Scans .opening (c :: chars) tokens after := by
  intro mode hmode
  obtain ⟨found, mode', hrun, hmode', heq⟩ := h .idle .between
  have hpending : mode.pending = [] := by cases hmode <;> rfl
  refine ⟨found, mode', ?_, hmode', hpending ▸ heq⟩
  rw [Mode.run, hmode.step_operand_start hc]
  exact hrun

/-- A text that starts with a delimiter is scanned alike after all operands. -/
theorem ended {c : Char} (h : Scans .between (c :: chars) tokens after)
    (hc : c ∈ delimiters) : Scans .ended (c :: chars) tokens after := by
  intro mode hmode
  obtain ⟨found, mode', hrun, hmode', heq⟩ := h .idle .between
  refine ⟨mode.pending ++ found, mode', ?_, hmode', ?_⟩
  · simp only [Mode.run, Option.bind_eq_bind, Option.bind_eq_some_iff, Prod.exists] at hrun
    obtain ⟨first, next, hstep, rest, last, hrest, hfound⟩ := hrun
    obtain ⟨rfl, rfl⟩ := Prod.mk.inj (Option.some.inj hfound)
    simp [Mode.run, hmode.step_delimiter hc, hstep, hrest]
  · rw [List.append_assoc, ← heq]
    rfl

/-- Blanks are skipped everywhere. -/
theorem blanks (phase : Phase) (count : Nat) :
    Scans phase (List.replicate count ' ') [] phase := by
  induction count with
  | zero => exact nil phase
  | succ count ih =>
      have hblank : Scans phase [' '] [] phase := by
        cases phase with
        | between => exact of_run .between rfl
        | ended =>
            have hidle : Scans .between [' '] [] .ended := of_run .idle rfl
            exact hidle.ended (by decide)
        | opening =>
            intro mode hmode
            cases hmode with
            | blank restricted => exact ⟨[], .blank restricted, rfl, .blank restricted, rfl⟩
            | @operator c hmem =>
                have hjoins : (operators.map (·.1)).any (joins · ' ') = false := rfl
                have hblank := List.any_eq_false.1 hjoins c hmem
                refine ⟨[], .idle, ?_, .blank false, rfl⟩
                simp [Mode.run, Mode.step, hblank, Mode.next]
      exact hblank.append ih

end Scans

end JavaScript

/-! ## Documents -/

namespace Doc

open JavaScript

/-- From every mode of a phase a document has some tokens, wherever it is written, and another phase
follows. -/
def Scans (before : Phase) (doc : Doc) (tokens : List JavaScript.Token) (after : Phase) : Prop :=
  ∀ width level fresh, JavaScript.Scans before (doc.chars width level fresh) tokens after

variable {before middle after : Phase} {tokens tokens' : List JavaScript.Token}
  {first second body : Doc}

/-- A piece of text has its tokens also after the blanks of a fresh line. -/
theorem scans_text {piece : String} (h : JavaScript.Scans before piece.toList tokens after) :
    Scans before (text piece) tokens after := by
  intro width level fresh
  rw [chars]
  split
  next hempty =>
    obtain rfl := String.isEmpty_iff.1 hempty
    exact h
  next =>
    cases fresh with
    | false => exact h
    | true => exact (JavaScript.Scans.blanks before (level * width)).append h

/-- Documents one after the other. -/
theorem Scans.append (h : Scans before first tokens middle)
    (h' : Scans middle second tokens' after) :
    Scans before (first ++ second) (tokens ++ tokens') after :=
  fun width level fresh => (h width level fresh).append (h' width level _)

/-- An indented document. -/
theorem Scans.nest (h : Scans before body tokens after) : Scans before (nest body) tokens after :=
  fun width level fresh => h width (level + 1) fresh

/-- A document of no pieces. -/
theorem scans_nothing (phase : Phase) : Scans phase nothing [] phase :=
  fun _ _ _ => .nil phase

/-- A piece of text after which a line ends. -/
theorem scans_line {piece : String} (h : JavaScript.Scans before piece.toList tokens .ended) :
    Scans before (line piece) tokens .between := by
  have hidle : JavaScript.Scans .between ['\n'] [] .between := .of_run .between rfl
  have hnewline : Scans .ended newline [] .between := fun _ _ _ => hidle.ended (by decide)
  have hline := (scans_text h).append hnewline
  rwa [List.append_nil] at hline

end Doc

end LetScript

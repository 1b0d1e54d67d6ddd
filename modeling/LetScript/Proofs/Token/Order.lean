import LetScript.Proofs.Token.Lossless
import LetScript.Proofs.Token.Window

/-!
# The order of the tokens of a source

The tokens of a source stand one after the other and all but the end of input have a width, so no
two of them start at the same position. The invalid ones have a diagnostic there, and no others have
one (`Token.read_arranged`).
-/

namespace LetScript

namespace Token

/-- A token covers some bytes, all of them before another token. -/
def Before (first second : Token) : Prop :=
  first.span.start.offset < first.span.stop.offset ∧
    first.span.stop.offset ≤ second.span.start.offset

/-- A token that stands before another one starts before it. -/
theorem Before.start_lt {first second : Token} (h : Before first second) :
    first.span.start.offset < second.span.start.offset :=
  Nat.lt_of_lt_of_le h.1 h.2

/-- The tokens of a text stand one after the other, from its start on. -/
theorem Cut.ordered {start : Position} {text : List Char} {tokens : List Token}
    (h : Cut start text tokens) :
    (∀ token ∈ tokens, start.offset ≤ token.span.start.offset) ∧ tokens.Pairwise Before := by
  induction h with
  | done start => exact ⟨List.forall_mem_singleton.2 (Nat.le_refl _), List.pairwise_singleton ..⟩
  | @token start c text token tokens htoken _ ih =>
      obtain ⟨hstop, hpairwise⟩ := ih
      have hstart : token.span.start.offset = start.offset := by rw [htoken]; rfl
      have hwidth : token.span.start.offset < token.span.stop.offset := by
        rw [htoken]
        show start.offset < start.offset + Text.byteLength (c :: _)
        have hpos := c.utf8Size_pos
        rw [Text.byte_length_cons]
        omega
      refine ⟨List.forall_mem_cons.2 ⟨Nat.le_of_eq hstart.symm, fun other hother => ?_⟩, ?_⟩
      · have := hstop other hother
        omega
      · exact List.pairwise_cons.2 ⟨fun other hother => ⟨hwidth, hstop other hother⟩, hpairwise⟩

/-- Tokens as a lexer gives them: one after the other, the last of them and no other an end of
input, and the invalid ones and no others with a diagnostic, which stands at their start. -/
structure Arranged (tokens : List Token) : Prop where
  closed : ∃ front last, tokens = front ++ [last] ∧ last.kind = .endOfInput ∧
    ∀ token ∈ front, token.kind ≠ .endOfInput
  ordered : tokens.Pairwise Before
  diagnosed : ∀ token ∈ tokens, token.diagnostic.isSome ↔ token.kind = .invalid
  located : ∀ token ∈ tokens, ∀ diagnostic ∈ token.diagnostic,
    diagnostic.position = token.span.start

/-- The tokens of a source are arranged in this way. -/
theorem read_arranged (source file : String) : Arranged (read source file).toList := by
  obtain ⟨front, htokens, hfront⟩ := read_placed source file
  refine ⟨⟨front, _, htokens, rfl, ?_⟩, (read_cut source file).ordered.2, ?_, ?_⟩
  · intro token htoken
    obtain ⟨before, c, rest, hplaced⟩ := hfront token htoken
    exact hplaced.kind_ne
  · rw [htokens]
    refine List.forall_mem_append.2 ⟨fun token htoken => ?_, List.forall_mem_singleton.2 ?_⟩
    · obtain ⟨before, c, rest, hplaced⟩ := hfront token htoken
      exact hplaced.diagnostic_iff
    · exact ⟨nofun, nofun⟩
  · rw [htokens]
    refine List.forall_mem_append.2 ⟨fun token htoken diagnostic hdiagnostic => ?_,
      List.forall_mem_singleton.2 nofun⟩
    obtain ⟨before, c, rest, hplaced⟩ := hfront token htoken
    exact hplaced.diagnostic_position hdiagnostic

namespace Arranged

variable {tokens : List Token} {first second : Token}

/-- Tokens that start at the same position are the same. -/
theorem eq_of_start_eq (h : Arranged tokens) (hfirst : first ∈ tokens) (hsecond : second ∈ tokens)
    (hstart : first.span.start = second.span.start) : first = second := by
  have hordered := h.ordered
  clear h
  induction tokens with
  | nil => exact absurd hfirst List.not_mem_nil
  | cons token tokens ih =>
      obtain ⟨hbefore, hordered⟩ := List.pairwise_cons.1 hordered
      have hoffset := congrArg Position.offset hstart
      rcases List.mem_cons.1 hfirst with rfl | hfirst'
      · rcases List.mem_cons.1 hsecond with rfl | hsecond'
        · rfl
        · exact absurd hoffset (Nat.ne_of_lt (hbefore second hsecond').start_lt)
      · rcases List.mem_cons.1 hsecond with rfl | hsecond'
        · exact absurd hoffset.symm (Nat.ne_of_lt (hbefore first hfirst').start_lt)
        · exact ih hfirst' hsecond' hordered

/-- No token occurs twice. -/
theorem nodup (h : Arranged tokens) : tokens.Nodup := by
  refine h.ordered.imp ?_
  rintro first _ hbefore rfl
  exact Nat.lt_irrefl _ hbefore.start_lt

/-- The tokens before the end of input that are not blank are those of the program. -/
theorem program_eq {tokens : Array Token} (h : Arranged tokens.toList) :
    Token.program tokens =
      Token.significant (tokens.toList.filter fun token => token.kind ≠ .endOfInput) := by
  obtain ⟨front, last, htokens, hlast, hfront⟩ := h.closed
  have hkeep : ∀ token ∈ front, decide (token.kind ≠ .endOfInput) = true :=
    fun token htoken => decide_eq_true (hfront token htoken)
  rw [Token.program, htokens, List.takeWhile_append_of_pos hkeep, List.filter_append,
    List.filter_eq_self.2 hkeep]
  simp [hlast]

end Arranged

end Token

end LetScript

import LetScript.Token.Lexer

/-!
# Tokens cover the source

The tokens of a source text lie end to end: the first one starts where the text starts, each starts
where the one before it ends, and the end of input stands behind the last character. Every token
but the end of input is a lexeme found at its place (`Token.Placed`), so its span is not empty and
lies between characters. `Token.read_lossless` puts this together: the parts of the source in the
spans of the tokens add up to the source.
-/

namespace LetScript

/-- The part of a source text in a span. There is none if an end of the span is past the end of the
text or inside a character. -/
def Span.slice? (source : String) (span : Span) : Option String :=
  (Text.splitAtByte? span.start.offset source.toList).bind fun (_, rest) =>
    (Text.splitAtByte? span.length rest).map fun (text, _) => String.ofList text

/-- The part of a source text in a span that is known to lie between characters. -/
theorem Span.slice_of_append {source : String} {before text after : List Char} {span : Span}
    (hsource : source.toList = before ++ (text ++ after))
    (hstart : span.start.offset = Text.byteLength before)
    (hstop : span.stop.offset = Text.byteLength before + Text.byteLength text) :
    span.slice? source = some (String.ofList text) := by
  have hlength : span.length = Text.byteLength text := by
    unfold Span.length
    omega
  unfold Span.slice?
  rw [hstart, hlength, hsource, Text.split_at_byte_append, Option.bind_some]
  show (Text.splitAtByte? (Text.byteLength text) (text ++ after)).map _ = _
  rw [Text.split_at_byte_append]
  rfl

/-- The offset after the first part of a text lies between two characters. -/
theorem Text.is_valid_of_append {source : String} {before after : List Char}
    (hsource : source.toList = before ++ after) :
    String.Pos.Raw.IsValid source ⟨byteLength before⟩ := by
  refine String.Pos.Raw.isValid_iff_exists_append.2
    ⟨String.ofList before, String.ofList after, ?_, ?_⟩
  · rw [← String.ofList_append, ← hsource, String.ofList_toList]
  · rw [String.Pos.Raw.ext_iff, String.byteIdx_rawEndPos, ← byte_length_to_list,
      String.toList_ofList]

/-! ## One lexeme -/

namespace Lexeme

/-- A lexeme has a cause exactly if it is invalid, and it is never the end of input. -/
structure Sound (lexeme : Lexeme) : Prop where
  cause : lexeme.cause.isSome ↔ lexeme.kind = .invalid
  kind_ne : lexeme.kind ≠ .endOfInput

/-- A plain lexeme has no cause. -/
theorem Sound.plain {kind : Kind} (tail : Nat) (hinvalid : kind ≠ .invalid)
    (hend : kind ≠ .endOfInput) : (Lexeme.plain kind tail).Sound :=
  ⟨⟨fun h => by simp [Lexeme.plain] at h, fun h => absurd h hinvalid⟩, hend⟩

/-- A faulty lexeme has a cause. -/
theorem Sound.faulty (cause : Cause) (tail : Nat) : (Lexeme.faulty cause tail).Sound :=
  ⟨⟨fun _ => rfl, fun _ => rfl⟩, by simp [Lexeme.faulty]⟩

/-- Being written in brackets does not matter for a cause. -/
theorem Sound.quoted {lexeme : Lexeme} (h : lexeme.Sound) (quoted : Bool) :
    Sound { lexeme with quoted } :=
  ⟨h.cause, h.kind_ne⟩

/-- A word is a keyword or a name. -/
theorem keyword_cases (word : String) :
    (Kind.keyword? word).getD .identifier ∈ [Kind.letWord, .fnWord, .inWord, .identifier] := by
  unfold Kind.keyword?
  split <;> decide

theorem scan_word_sound (c : Char) (text : List Char) : (scanWord c text).Sound := by
  have hkind := keyword_cases (String.ofList (c :: text.take (runLength isNamePart text)))
  unfold scanWord
  refine .plain _ ?_ ?_
  · intro heq
    rw [heq] at hkind
    exact absurd hkind (by decide)
  · intro heq
    rw [heq] at hkind
    exact absurd hkind (by decide)

theorem scan_bracketed_sound (text : List Char) : (scanBracketed text).Sound := by
  unfold scanBracketed
  split
  · exact (Sound.faulty _ _).quoted true
  · split
    · exact (Sound.faulty _ _).quoted true
    · exact (Sound.plain _ (by decide) (by decide)).quoted true

theorem scan_symbol_sound (c : Char) (text : List Char) : (scanSymbol c text).Sound := by
  unfold scanSymbol
  split
  case h_15 => exact scan_bracketed_sound _
  all_goals exact ⟨by decide, by decide⟩

/-- Whatever stands at the front of a text is a sound lexeme. -/
theorem scan_sound (c : Char) (text : List Char) : (scan c text).Sound := by
  unfold scan
  split
  · exact .plain _ (by decide) (by decide)
  · split
    · exact .plain _ (by decide) (by decide)
    · split
      · exact scan_word_sound c text
      · exact scan_symbol_sound c text

end Lexeme

namespace Token

/-! ## The place of a token -/

/-- A token is the lexeme at the front of `c :: rest`, which follows `before` in a text. -/
structure Placed (file : String) (text before : List Char) (c : Char) (rest : List Char)
    (token : Token) : Prop where
  text_eq : text = before ++ c :: rest
  token_eq : token = (Lexeme.scan c rest).toToken (c :: rest.take (Lexeme.scan c rest).tail)
    ⟨file, Text.byteLength before⟩

/-- The characters of a token that starts with `c`, and what follows them. -/
theorem Placed.split {file : String} {text before rest : List Char} {c : Char} {token : Token}
    (h : Placed file text before c rest token) :
    text = before ++ (c :: rest.take (Lexeme.scan c rest).tail ++
      rest.drop (Lexeme.scan c rest).tail) := by
  rw [h.text_eq, List.cons_append, List.take_append_drop]

/-- The tokens of a text from a position on: the lexeme at its front, and the tokens of what
follows. -/
inductive Cut : Position → List Char → List Token → Prop where
  | done (start : Position) : Cut start [] [.endOfInput start]
  | token {start : Position} {c : Char} {text : List Char} {token : Token} {tokens : List Token} :
      token = (Lexeme.scan c text).toToken (c :: text.take (Lexeme.scan c text).tail) start →
      Cut token.span.stop (text.drop (Lexeme.scan c text).tail) tokens →
      Cut start (c :: text) (token :: tokens)

/-- Reading tokens cuts the text, after the tokens already read. -/
theorem read_from_cut (start : Position) (tokens : Array Token) (text : List Char) :
    ∃ more, (readFrom start tokens text).toList = tokens.toList ++ more ∧ Cut start text more := by
  fun_induction readFrom start tokens text with
  | case1 start tokens => exact ⟨_, Array.toList_push .., .done start⟩
  | case2 start tokens c text lexeme token ih =>
      obtain ⟨more, hmore, hcut⟩ := ih
      refine ⟨token :: more, ?_, .token rfl hcut⟩
      rw [hmore, Array.toList_push, List.append_assoc, List.singleton_append]

/-- Reading a source text cuts all of it. -/
theorem read_cut (source file : String) :
    Cut ⟨file, 0⟩ source.toList (read source file).toList := by
  obtain ⟨tokens, htokens, hcut⟩ := read_from_cut ⟨file, 0⟩ #[] source.toList
  unfold read
  rw [htokens]
  exact hcut

namespace Cut

variable {file : String} {start : Position} {before text : List Char} {tokens : List Token}
  {token : Token}

/-- The tokens start where the text starts. -/
theorem head_start (h : Cut start text tokens) :
    ∃ first rest, tokens = first :: rest ∧ first.span.start = start := by
  cases h with
  | done => exact ⟨_, [], rfl, rfl⟩
  | token htoken _ => exact ⟨_, _, rfl, htoken ▸ rfl⟩

/-- Every token starts where the one before it ends. -/
theorem meets (h : Cut start text tokens) (index : Nat) {first second : Token}
    (hfirst : tokens[index]? = some first) (hsecond : tokens[index + 1]? = some second) :
    first.span.stop = second.span.start := by
  induction h generalizing index with
  | done => simp at hsecond
  | token htoken hcut ih =>
      cases index with
      | zero =>
          obtain ⟨next, rest, rfl, hnext⟩ := hcut.head_start
          obtain rfl := Option.some.inj hfirst
          obtain rfl := Option.some.inj hsecond
          exact hnext.symm
      | succ index => exact ih index hfirst hsecond

/-- A token of a text is placed in it, or it is the end of input behind the last character. The end
of input is the last token, and only the last one. -/
theorem placed (h : Cut ⟨file, Text.byteLength before⟩ text tokens) :
    ∃ front, tokens = front ++ [.endOfInput ⟨file, Text.byteLength (before ++ text)⟩] ∧
      ∀ token ∈ front, ∃ passed c rest, Placed file (before ++ text) passed c rest token := by
  generalize hstart : (⟨file, Text.byteLength before⟩ : Position) = start at h
  induction h generalizing before with
  | done =>
      subst hstart
      refine ⟨[], by rw [List.append_nil]; rfl, ?_⟩
      exact fun _ hmem => absurd hmem List.not_mem_nil
  | @token start c text token tokens htoken hcut ih =>
      subst hstart
      have hplaced : Placed file (before ++ c :: text) before c text token := ⟨rfl, htoken⟩
      have hstop : (⟨file, Text.byteLength (before ++ c :: text.take (Lexeme.scan c text).tail)⟩ :
          Position) = token.span.stop := by
        rw [htoken, Text.byte_length_append]
        rfl
      obtain ⟨front, rfl, hfront⟩ := ih hstop
      rw [List.append_assoc, ← hplaced.split] at hfront ⊢
      exact ⟨token :: front, rfl, List.forall_mem_cons.2 ⟨⟨before, c, text, hplaced⟩, hfront⟩⟩

/-- The parts of the source in the spans of the tokens add up to the text that they cut. -/
theorem slices {source : String} (h : Cut ⟨file, Text.byteLength before⟩ text tokens)
    (hsource : source.toList = before ++ text) :
    ∃ parts : List String, tokens.map (fun token => token.span.slice? source) = parts.map some ∧
      parts.flatMap String.toList = text := by
  generalize hstart : (⟨file, Text.byteLength before⟩ : Position) = start at h
  induction h generalizing before with
  | done =>
      subst hstart
      refine ⟨[""], ?_, rfl⟩
      have hslice : (Span.empty ⟨file, Text.byteLength before⟩).slice? source = some "" :=
        Span.slice_of_append (hsource.trans (by rw [List.nil_append])) rfl rfl
      show [Span.slice? source (.empty _)] = [some ""]
      rw [hslice]
  | @token start c text token tokens htoken hcut ih =>
      subst hstart
      have hplaced : Placed file (before ++ c :: text) before c text token := ⟨rfl, htoken⟩
      have hsplit := hsource.trans hplaced.split
      have hstop : (⟨file, Text.byteLength (before ++ c :: text.take (Lexeme.scan c text).tail)⟩ :
          Position) = token.span.stop := by
        rw [htoken, Text.byte_length_append]
        rfl
      obtain ⟨parts, hparts, htext⟩ := ih (hsplit.trans (List.append_assoc ..).symm) hstop
      have hslice : token.span.slice? source = _ :=
        Span.slice_of_append hsplit (by rw [htoken]; rfl) (by rw [htoken]; rfl)
      refine ⟨String.ofList (c :: text.take (Lexeme.scan c text).tail) :: parts, ?_, ?_⟩
      · rw [List.map_cons, List.map_cons, hslice, hparts]
      · rw [List.flatMap_cons, htext, String.toList_ofList, List.cons_append,
          List.take_append_drop]

end Cut

namespace Placed

variable {file source : String} {before rest : List Char} {c : Char} {token : Token}

/-- A placed token is not the end of input. -/
theorem kind_ne (h : Placed file source.toList before c rest token) :
    token.kind ≠ .endOfInput := by
  rw [h.token_eq]
  exact (Lexeme.scan_sound c rest).kind_ne

/-- A placed token covers at least its first character. -/
theorem start_lt_stop (h : Placed file source.toList before c rest token) :
    token.span.start.offset < token.span.stop.offset := by
  rw [h.token_eq]
  show Text.byteLength before < Text.byteLength before + Text.byteLength (c :: _)
  have hpos := c.utf8Size_pos
  rw [Text.byte_length_cons]
  omega

/-- The source of a placed token. -/
theorem slice_eq (h : Placed file source.toList before c rest token) :
    token.span.slice? source =
      some (String.ofList (c :: rest.take (Lexeme.scan c rest).tail)) :=
  Span.slice_of_append h.split (by rw [h.token_eq]; rfl) (by rw [h.token_eq]; rfl)

/-- Both ends of a placed token lie between characters. -/
theorem boundaries (h : Placed file source.toList before c rest token) :
    String.Pos.Raw.IsValid source ⟨token.span.start.offset⟩ ∧
      String.Pos.Raw.IsValid source ⟨token.span.stop.offset⟩ := by
  have hstop := h.split
  rw [← List.append_assoc] at hstop
  have hvalid := Text.is_valid_of_append hstop
  rw [Text.byte_length_append] at hvalid
  rw [h.token_eq]
  exact ⟨Text.is_valid_of_append h.split, hvalid⟩

/-- The value of a placed token is its source, unless it is a quoted identifier. -/
theorem value_eq (h : Placed file source.toList before c rest token)
    (hquoted : ¬ (token.kind = .identifier ∧ token.quoted)) :
    token.span.slice? source = some token.value := by
  rw [h.slice_eq, h.token_eq]
  rw [h.token_eq] at hquoted
  exact congrArg some (if_neg hquoted).symm

/-- A placed token has a diagnostic exactly if it is invalid. -/
theorem diagnostic_iff (h : Placed file source.toList before c rest token) :
    token.diagnostic.isSome ↔ token.kind = .invalid := by
  rw [h.token_eq]
  show (Option.map _ _).isSome ↔ _
  rw [Option.isSome_map]
  exact (Lexeme.scan_sound c rest).cause

/-- The diagnostic of a placed token concerns its start. -/
theorem diagnostic_position (h : Placed file source.toList before c rest token)
    {diagnostic : Diagnostic} (hdiagnostic : token.diagnostic = some diagnostic) :
    diagnostic.position = token.span.start := by
  rw [h.token_eq] at hdiagnostic ⊢
  obtain ⟨cause, -, rfl⟩ := Option.map_eq_some_iff.1 hdiagnostic
  rfl

end Placed

/-- The end of input comes after all other tokens, and every other token of a source text is placed
in it. -/
theorem read_placed (source file : String) :
    ∃ front, (read source file).toList = front ++ [.endOfInput ⟨file, source.utf8ByteSize⟩] ∧
      ∀ token ∈ front, ∃ before c rest, Placed file source.toList before c rest token := by
  have hcut : Cut ⟨file, Text.byteLength []⟩ source.toList (read source file).toList :=
    read_cut source file
  have hplaced := hcut.placed
  rw [List.nil_append, Text.byte_length_to_list] at hplaced
  exact hplaced

/-- A token of a source text is placed in it, or it is the end of input. -/
theorem mem_read {source file : String} {token : Token} (h : token ∈ (read source file).toList) :
    (∃ before c rest, Placed file source.toList before c rest token) ∨
      token = .endOfInput ⟨file, source.utf8ByteSize⟩ := by
  obtain ⟨front, htokens, hfront⟩ := read_placed source file
  rw [htokens, List.mem_append, List.mem_singleton] at h
  exact h.imp_left (hfront token)

/-! ## The tokens of a source -/

/-- What it means that the tokens of a source text lose nothing of it. -/
structure Lossless (source file : String) (tokens : List Token) : Prop where
  /-- The last token is the end of input, without width at the end of the source. No other token is
  an end of input. -/
  closed : ∃ front, tokens = front ++ [.endOfInput ⟨file, source.utf8ByteSize⟩] ∧
    ∀ token ∈ front, token.kind ≠ .endOfInput
  /-- The first token starts at the start of the source. -/
  starts : ∃ first, tokens.head? = some first ∧ first.span.start = ⟨file, 0⟩
  /-- Every token starts where the one before it ends. -/
  meets : ∀ (index : Nat) (first second : Token), tokens[index]? = some first →
    tokens[index + 1]? = some second → first.span.stop = second.span.start
  /-- Every token but the end of input has a width. -/
  nonempty : ∀ token ∈ tokens, token.kind ≠ .endOfInput →
    token.span.start.offset < token.span.stop.offset
  /-- Every span starts and ends between two characters. -/
  boundaries : ∀ token ∈ tokens, String.Pos.Raw.IsValid source ⟨token.span.start.offset⟩ ∧
    String.Pos.Raw.IsValid source ⟨token.span.stop.offset⟩
  /-- The parts of the source in the spans add up to the source. -/
  joined : ∃ parts : List String,
    tokens.map (fun token => token.span.slice? source) = parts.map some ∧
      String.join parts = source
  /-- The value of a token is its part of the source, unless it is a quoted identifier. -/
  value : ∀ token ∈ tokens, token.kind ≠ .endOfInput →
    ¬ (token.kind = .identifier ∧ token.quoted) → token.span.slice? source = some token.value
  /-- The invalid tokens have a diagnostic, and no others. -/
  diagnosed : ∀ token ∈ tokens, token.diagnostic.isSome ↔ token.kind = .invalid
  /-- The diagnostic of a token concerns its start. -/
  position : ∀ token ∈ tokens, ∀ diagnostic, token.diagnostic = some diagnostic →
    diagnostic.position = token.span.start

/-- The tokens of a source text lose nothing of it. -/
theorem read_lossless (source file : String) : Lossless source file (read source file).toList := by
  have hcut : Cut ⟨file, Text.byteLength []⟩ source.toList (read source file).toList :=
    read_cut source file
  obtain ⟨front, htokens, hfront⟩ := read_placed source file
  -- a token is placed, or it is the end of input
  have hmem : ∀ token ∈ (read source file).toList,
      (∃ before c rest, Placed file source.toList before c rest token) ∨
        token = .endOfInput ⟨file, source.utf8ByteSize⟩ := by
    intro token htoken
    rw [htokens] at htoken
    rcases List.mem_append.1 htoken with htoken | htoken
    · exact .inl (hfront token htoken)
    · exact .inr (List.mem_singleton.1 htoken)
  refine ⟨⟨front, htokens, ?_⟩, ?_, ?_, ?_, ?_, ?_, ?_, ?_, ?_⟩
  · intro token htoken
    obtain ⟨before, c, rest, hplaced⟩ := hfront token htoken
    exact hplaced.kind_ne
  · obtain ⟨first, rest, heq, hstart⟩ := hcut.head_start
    exact ⟨first, by rw [heq]; rfl, hstart⟩
  · exact fun index first second => hcut.meets index
  · intro token htoken hend
    rcases hmem token htoken with ⟨before, c, rest, hplaced⟩ | rfl
    · exact hplaced.start_lt_stop
    · exact absurd rfl hend
  · intro token htoken
    rcases hmem token htoken with ⟨before, c, rest, hplaced⟩ | rfl
    · exact hplaced.boundaries
    · have hend := Text.is_valid_of_append (List.append_nil source.toList).symm
      rw [Text.byte_length_to_list] at hend
      exact ⟨hend, hend⟩
  · obtain ⟨parts, hparts, hjoined⟩ := hcut.slices rfl
    refine ⟨parts, hparts, String.toList_inj.1 ?_⟩
    rw [String.toList_join, hjoined]
  · intro token htoken hend hquoted
    rcases hmem token htoken with ⟨before, c, rest, hplaced⟩ | rfl
    · exact hplaced.value_eq hquoted
    · exact absurd rfl hend
  · intro token htoken
    rcases hmem token htoken with ⟨before, c, rest, hplaced⟩ | rfl
    · exact hplaced.diagnostic_iff
    · exact ⟨nofun, nofun⟩
  · intro token htoken diagnostic hdiagnostic
    rcases hmem token htoken with ⟨before, c, rest, hplaced⟩ | rfl
    · exact hplaced.diagnostic_position hdiagnostic
    · cases hdiagnostic

end Token

end LetScript

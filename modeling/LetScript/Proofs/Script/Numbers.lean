import LetScript.Proofs.Diagnostic.Origins
import LetScript.Proofs.Script.Program
import LetScript.Proofs.Token.Numerals

/-!
# Numbers from the source to the code

Numbers of a source are numerals, so the parser refuses none of them (`compile_refuses_no_number`).
Those beyond the greatest finite number are read as infinity, and none is read as the undefined
number, so the code of a number starts with a digit or is that of infinity
(`Script.number_text_cases`). `compile_accepts_numbers` puts this together.
-/

namespace LetScript

/-! ## The text of a number -/

/-- A decimal number is never read as the undefined number. -/
theorem Binary64.of_decimal_le (value : Decimal) : ofDecimal value ≤ infinity := by
  unfold ofDecimal
  split
  · exact Nat.zero_le _
  · split
    · split
      · exact Nat.le_refl _
      · exact Nat.min_le_right ..
    · split
      · exact Nat.zero_le _
      · exact Nat.min_le_right ..

/-- The text of a number that is neither negative nor undefined starts with a digit, or it is that
of infinity. -/
theorem Script.number_text_cases {value : Binary64} (hsign : value.negative = false)
    (hle : value.magnitude ≤ Binary64.infinity) :
    numberText value = "Infinity" ∨
      ∃ c rest, (numberText value).toList = c :: rest ∧ c.isDigit := by
  unfold numberText
  split
  next => exact .inl rfl
  next hinfinite =>
    have hne : value.magnitude ≠ Binary64.infinity := by
      simpa [Binary64.isInfinite] using hinfinite
    obtain ⟨whole, fraction, htext, hwhole, -, -⟩ :=
      Binary64.to_text_written (Nat.lt_of_le_of_ne hle hne)
    obtain ⟨c, more, rfl, hc⟩ := hwhole.exists_cons
    rw [hsign] at htext
    obtain ⟨rest, hrest⟩ := Numeral.written_eq_cons c more fraction
    exact .inr ⟨c, rest, htext.trans hrest, hc⟩

/-- The code of a number is its text. -/
theorem Tree.generate_literal (id : NodeId) (token : Token) (value : Binary64) (bindings : Bindings)
    (options : Options) :
    (Tree.literal id token value).generate bindings options = Script.numberText value := by
  refine String.toList_inj.1 ((Tree.to_list_generate _ _ _).trans ?_)
  show (Doc.text (Script.numberText value)).chars options.indentWidth 0 true = _
  rw [Doc.chars, Nat.zero_mul]
  split
  next hempty => rw [String.isEmpty_iff.1 hempty]; rfl
  next => rfl

/-! ## Parsing numbers -/

/-- The parser takes a number whose text is a numeral. -/
theorem Parser.parse_literal {stream : TokenStream} {token : Token} {value : Binary64} {s : State}
    (operand : Power → Parse Tree) (hnext : stream.next s.pos = token)
    (hkind : token.kind = .number) (hvalue : Binary64.read? token.value = some value) :
    parsePrefix stream operand .literal s = .ok (.literal s.nextId token value)
      { s with pos := stream.significant s.pos + 1, nextId := s.nextId + 1 } := by
  have hget : stream.get (stream.significant s.pos) = token := hnext
  have hne : token.kind ≠ .endOfInput := by rw [hkind]; decide
  have hadvance : advance stream { s with pos := stream.significant s.pos } =
      .ok token { s with pos := stream.significant s.pos + 1 } := by
    simp only [advance, TokenStream.significant_significant, hget, if_neg hne]
  unfold parsePrefix
  simp only [bind, EStateM.bind, current, hget, hvalue, hadvance]
  rfl

/-- The causes of invalid tokens. -/
def Cause.lexical : List Cause :=
  [.unrecognisedSymbol, .unrecognisedDot, .unterminatedQuotedIdentifier, .emptyQuotedIdentifier]

/-- Lexemes are invalid for lexical causes. -/
theorem Lexeme.cause_mem_lexical {c : Char} {text : List Char} {cause : Cause}
    (h : (scan c text).cause = some cause) : cause ∈ Cause.lexical := by
  unfold scan at h
  split at h
  · cases h
  · split at h
    · cases h
    · split at h
      · cases h
      · unfold scanSymbol at h
        split at h
        case h_15 =>
          unfold scanBracketed at h
          split at h
          · cases h; decide
          · split at h
            · cases h; decide
            · cases h
        all_goals cases h
        all_goals decide

/-- The tokens of a source are invalid for lexical causes. -/
theorem Token.cause_mem_lexical {source file : String} {token : Token} {own : Diagnostic}
    (h : token ∈ (read source file).toList) (hown : token.diagnostic = some own) :
    own.cause ∈ Cause.lexical := by
  rcases mem_read h with ⟨before, c, rest, hplace⟩ | rfl
  · rw [hplace.token_eq] at hown
    obtain ⟨cause, hcause, rfl⟩ := Option.map_eq_some_iff.1 hown
    exact Lexeme.cause_mem_lexical hcause
  · cases hown

/-- No diagnostic of a source says that a number is no numeral. -/
theorem compile_refuses_no_number {source : String} {options : Options} {d : Diagnostic}
    (h : d ∈ (compile source options).diagnostics) (text : String) :
    d.cause ≠ .numberParseError text := by
  obtain ⟨token, htoken, -, habout⟩ := compile_about h
  cases habout with
  | @raised cause hfits =>
      rintro rfl
      obtain ⟨-, hkind, hvalue⟩ := hfits
      obtain ⟨value, hread⟩ := Token.read_number htoken hkind
      rw [Binary64.read?, hread] at hvalue
      cases hvalue
  | invalid =>
      have hlexical : ∀ cause ∈ Cause.lexical, cause.isSyntactic = false := by decide
      have hcause : (token.diagnostic.getD ⟨.unrecognisedSymbol, token.span.start⟩).cause ∈
          Cause.lexical := by
        cases hown : token.diagnostic with
        | none => exact List.mem_cons_self ..
        | some own => exact Token.cause_mem_lexical htoken hown
      intro heq
      have hsyntactic := hlexical _ hcause
      rw [heq] at hsyntactic
      cases hsyntactic
  | unresolved =>
      intro heq
      cases heq

/-- The numbers of a source are numbers to the parser. The text of each is a numeral, so it becomes
a literal wherever the parser meets it, and no diagnostic says that it is none. The code of the
literal is `Infinity` or starts with a digit, so it has no sign and is not that of the undefined
number. -/
theorem compile_accepts_numbers (source : String) (options : Options) :
    (∀ token ∈ (Token.read source options.fileName).toList, token.kind = .number →
      ∃ value, Binary64.read? token.value = some value ∧
        (∀ (stream : TokenStream) (operand : Power → Parser.Parse Tree) (s : Parser.State),
          stream.next s.pos = token →
            Parser.parsePrefix stream operand .literal s = .ok (.literal s.nextId token value)
              { s with pos := stream.significant s.pos + 1, nextId := s.nextId + 1 }) ∧
        ∀ (id : NodeId) (bindings : Bindings),
          let code := (Tree.literal id token value).generate bindings options
          code = "Infinity" ∨ ∃ c rest, code.toList = c :: rest ∧ c.isDigit) ∧
    ∀ d ∈ (compile source options).diagnostics, ∀ text, d.cause ≠ .numberParseError text := by
  refine ⟨fun token htoken hkind => ?_, fun d hd => compile_refuses_no_number hd⟩
  obtain ⟨decimal, hnumeral⟩ := Token.read_number htoken hkind
  have hvalue : Binary64.read? token.value = some ⟨false, Binary64.ofDecimal decimal⟩ := by
    rw [Binary64.read?, hnumeral]
    rfl
  refine ⟨_, hvalue, fun stream operand s hnext => ?_, fun id bindings => ?_⟩
  · exact Parser.parse_literal operand hnext hkind hvalue
  · show _ = "Infinity" ∨ _
    rw [Tree.generate_literal]
    exact Script.number_text_cases rfl (Binary64.of_decimal_le decimal)

end LetScript

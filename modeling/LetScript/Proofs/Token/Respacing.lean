import LetScript.Proofs.Relocation.Blanks
import LetScript.Proofs.Token.QuotedNames

/-!
# Setting tokens apart

Where a token ends depends on the characters after it: on the longest lexeme for a valid token, and
on what does not follow for an invalid one. A space in their place gives the same token again
(`Lexeme.scan_set_apart`), because no lexeme reaches over a space, unless it is blank or in
brackets, and brackets end where they did. So the significant tokens of a source, written one after
the other with single spaces between them, are read as the same tokens (`Token.read_respaced`). Only
brackets that are never closed could take in what follows them, but they are the end of their
source.
-/

namespace LetScript

namespace Lexeme

/-- What follows a token that is set apart: nothing, or a space. -/
inductive Gap : List Char → Prop where
  | none : Gap []
  | space (text : List Char) : Gap (' ' :: text)

/-! ## Lexemes and spaces -/

/-- There is no space among digits. -/
theorem IsDigits.no_space {text : List Char} (h : IsDigits text) : ' ' ∉ text :=
  fun hmem => absurd (h.2 ' ' hmem) (by decide)

/-- There is no space in a fraction. -/
theorem IsFraction.no_space {text : List Char} (h : IsFraction text) : ' ' ∉ text := by
  cases h with
  | none => exact List.not_mem_nil
  | some hdigits =>
      intro hmem
      rcases List.mem_cons.1 hmem with heq | hmem
      · exact absurd heq (by decide)
      · exact hdigits.no_space hmem

/-- There is no space in an exponent. -/
theorem IsExponent.no_space {text : List Char} (h : IsExponent text) : ' ' ∉ text := by
  cases h with
  | none => exact List.not_mem_nil
  | @some mark sign digits hmark hsign hdigits =>
      have hsigns : ∀ sign ∈ [[], ['+'], ['-']], ' ' ∉ sign := by decide
      intro hmem
      rcases List.mem_cons.1 hmem with rfl | hmem
      · exact absurd hmark (by decide)
      · rcases List.mem_append.1 hmem with hmem | hmem
        · exact hsigns sign hsign hmem
        · exact hdigits.no_space hmem

/-- A lexeme that is neither blank nor in brackets has no space in it. -/
theorem Matches.no_space {text : List Char} {kind : Kind} (h : Matches text kind false)
    (hkind : kind ≠ .blank) : ' ' ∉ text := by
  have hfixed : ∀ entry ∈ fixedTexts, ' ' ∉ entry.1 := by decide
  have hkeywords : ∀ entry ∈ keywords, ' ' ∉ entry.1 := by decide
  cases h with
  | blanks _ _ => exact absurd rfl hkind
  | number hwhole hfraction hexponent =>
      intro hmem
      rcases List.mem_append.1 hmem with hmem | hmem
      · exact hwhole.no_space hmem
      · rcases List.mem_append.1 hmem with hmem | hmem
        · exact hfraction.no_space hmem
        · exact hexponent.no_space hmem
  | fixed hmem => exact hfixed _ hmem
  | keyword hmem => exact hkeywords _ hmem
  | name hstart hpart _ =>
      intro hmem
      rcases List.mem_cons.1 hmem with rfl | hmem
      · exact absurd (starts_name_iff.1 hstart) (by decide)
      · exact absurd (continues_name_iff.1 (hpart ' ' hmem)) (by decide)

/-- A lexeme that does not start with a blank character is not blank. -/
theorem Matches.kind_ne_blank {c : Char} {text : List Char} {kind : Kind} {quoted : Bool}
    (h : Matches (c :: text) kind quoted) (hblank : Text.isBlank c = false) : kind ≠ .blank := by
  have hfixed : ∀ entry ∈ fixedTexts, entry.2 ≠ .blank := by decide
  have hkeywords : ∀ entry ∈ keywords, entry.2 ≠ .blank := by decide
  generalize htext : c :: text = lexeme at h
  cases h with
  | blanks _ hall =>
      have hc := mem_blanks_iff.1 (hall c (htext ▸ List.mem_cons_self ..))
      exact absurd hc (by rw [hblank]; decide)
  | fixed hmem => exact hfixed _ hmem
  | keyword hmem => exact hkeywords _ hmem
  | number | name | quoted => decide

/-- A lexeme in brackets starts with a bracket. -/
theorem Matches.head_quoted {c : Char} {text : List Char} {kind : Kind}
    (h : Matches (c :: text) kind true) : c = '[' := by
  obtain ⟨-, inside, -, -, htext⟩ := h.exists_inside
  exact (List.cons.inj htext).1

/-- A lexeme that starts with a bracket is in brackets. -/
theorem Matches.quoted_of_head {text : List Char} {kind : Kind} {quoted : Bool}
    (h : Matches ('[' :: text) kind quoted) : quoted = true := by
  have hbracketed : (scanBracketed text).quoted = true := by
    unfold scanBracketed
    split
    · rfl
    · split <;> rfl
  exact h.scan_kind.2.symm.trans hbracketed

/-! ## Tokens that are found again -/

/-- A lexeme that covers some characters after `c` is found again in front of a text. -/
structure FoundAgain (c : Char) (lexeme : Lexeme) (covered rest : List Char) : Prop where
  take_eq : (covered ++ rest).take (scan c (covered ++ rest)).tail = covered
  drop_eq : (covered ++ rest).drop (scan c (covered ++ rest)).tail = rest
  kind_eq : (scan c (covered ++ rest)).kind = lexeme.kind
  quoted_eq : (scan c (covered ++ rest)).quoted = lexeme.quoted
  cause_eq : (scan c (covered ++ rest)).cause = lexeme.cause

/-- A lexeme is found again where the scan gives one that covers the same and differs in nothing
else. -/
theorem FoundAgain.of_eq {c : Char} {lexeme found : Lexeme} {covered rest : List Char}
    (hscan : scan c (covered ++ rest) = found) (htail : found.tail = covered.length)
    (hkind : found.kind = lexeme.kind) (hquoted : found.quoted = lexeme.quoted)
    (hcause : found.cause = lexeme.cause) : FoundAgain c lexeme covered rest := by
  subst hscan
  refine ⟨?_, ?_, hkind, hquoted, hcause⟩
  · rw [htail]
    exact List.take_left
  · rw [htail]
    exact List.drop_left

/-- Characters that reach at least to a gap and hold no space end there. -/
theorem Gap.cut {covered rest : List Char} (h : Gap rest) {count : Nat}
    (hle : covered.length ≤ count) (hspace : ' ' ∉ (covered ++ rest).take count) :
    (covered ++ rest).take count = covered ∧ (covered ++ rest).drop count = rest := by
  cases h with
  | none =>
      rw [List.append_nil]
      exact ⟨List.take_of_length_le hle, List.drop_of_length_le hle⟩
  | space text =>
      obtain ⟨more, rfl⟩ := Nat.exists_eq_add_of_le hle
      rw [List.take_length_add_append] at hspace
      cases more with
      | zero => exact ⟨List.take_left, List.drop_left⟩
      | succ more =>
          exact absurd (List.mem_append_right _ (List.mem_cons_self ..)) hspace

/-- What is found before a gap after a character that is neither blank nor a bracket has no space
in it. -/
theorem Matches.no_space_found {c : Char} {text : List Char} {kind : Kind} {quoted : Bool}
    (h : Matches (c :: text) kind quoted) (hblank : Text.isBlank c = false) (hbracket : c ≠ '[') :
    ' ' ∉ text := by
  cases quoted with
  | true => exact absurd h.head_quoted hbracket
  | false =>
      exact fun hmem => h.no_space (h.kind_ne_blank hblank) (List.mem_cons_of_mem _ hmem)

/-- A lexeme that is not blank is found again before a gap. -/
theorem Matches.found_again {c : Char} {covered rest : List Char} {lexeme : Lexeme}
    (h : Matches (c :: covered) lexeme.kind lexeme.quoted) (hsound : lexeme.Sound)
    (hblank : Text.isBlank c = false) (hgap : Gap rest) : FoundAgain c lexeme covered rest := by
  have hcause : lexeme.cause = none :=
    Option.not_isSome_iff_eq_none.1 fun hsome => h.kind_ne (hsound.cause.1 hsome)
  by_cases hbracket : c = '['
  · -- the brackets are closed before the gap
    subst hbracket
    have hquoted := h.quoted_of_head
    rw [hquoted] at h
    obtain ⟨hkind, inside, hne, hinside, htext⟩ := h.exists_inside
    obtain ⟨-, rfl⟩ := List.cons.inj htext
    have hscan := scan_quoted hne hinside rest
    rw [← List.singleton_append, ← List.append_assoc] at hscan
    exact .of_eq hscan (by simp [plain]) hkind.symm hquoted.symm hcause.symm
  · have hfront : c :: covered <+: c :: (covered ++ rest) :=
      List.cons_prefix_cons.2 ⟨rfl, List.prefix_append ..⟩
    have hle := h.le_scan hfront
    rw [List.length_cons] at hle
    rcases found_scan c (covered ++ rest) with hfound | ⟨-, -, hnone⟩
    · obtain ⟨htake, hdrop⟩ :=
        hgap.cut (Nat.le_of_succ_le_succ hle) (hfound.no_space_found hblank hbracket)
      rw [htake] at hfound
      obtain ⟨hkind, hquoted⟩ := h.scan_kind
      obtain ⟨hkind', hquoted'⟩ := hfound.scan_kind
      have hvalid : (scan c (covered ++ rest)).kind ≠ .invalid := hfound.kind_ne
      refine ⟨htake, hdrop, hkind'.symm.trans hkind, hquoted'.symm.trans hquoted, ?_⟩
      rw [hcause]
      exact Option.not_isSome_iff_eq_none.1 fun hsome =>
        hvalid ((scan_sound c (covered ++ rest)).cause.1 hsome)
    · exact absurd hfront (hnone _ _ _ h)

/-! ## Invalid tokens -/

/-- Why a character that starts no token is invalid. -/
def strayCause (c : Char) : Cause := if c = '.' then .unrecognisedDot else .unrecognisedSymbol

/-- An invalid token that does not start with a bracket is a single character. -/
theorem scan_stray {c : Char} {text : List Char} (hbracket : c ≠ '[')
    (hinvalid : (scan c text).kind = .invalid) : scan c text = faulty (strayCause c) 0 := by
  unfold scan at hinvalid ⊢
  split at hinvalid
  · cases hinvalid
  · split at hinvalid
    · cases hinvalid
    · split at hinvalid
      · have hkind : (scanWord c text).kind ∈ _ := keyword_cases _
        rw [hinvalid] at hkind
        exact absurd hkind (by decide)
      · rename_i hblank hdigit hname
        rw [if_neg hblank, if_neg hdigit, if_neg hname]
        unfold scanSymbol at hinvalid ⊢
        split at hinvalid
        case h_11 => rfl
        case h_15 => exact absurd rfl hbracket
        case h_16 hdot _ _ _ _ _ => rw [strayCause, if_neg hdot]
        all_goals cases hinvalid

/-- A character at which no lexeme starts is found again before a gap. -/
theorem found_again_stray {c : Char} {text rest : List Char} (hblank : Text.isBlank c = false)
    (hbracket : c ≠ '[') (hinvalid : (scan c text).kind = .invalid)
    (hnone : ∀ lexeme kind quoted, Matches lexeme kind quoted → ¬ lexeme <+: c :: text)
    (hgap : Gap rest) : FoundAgain c (scan c text) [] rest := by
  -- a lexeme that starts here before the gap would be the character alone
  have hinvalid' : (scan c rest).kind = .invalid := by
    rcases found_scan c rest with hfound | ⟨hinvalid', -, -⟩
    · have hspace : ' ' ∉ ([] ++ rest).take (scan c rest).tail :=
        hfound.no_space_found hblank hbracket
      have htake : rest.take (scan c rest).tail = [] := (hgap.cut (Nat.zero_le _) hspace).1
      rw [htake] at hfound
      exact absurd (List.cons_prefix_cons.2 ⟨rfl, List.nil_prefix⟩) (hnone _ _ _ hfound)
    · exact hinvalid'
  rw [scan_stray hbracket hinvalid]
  exact .of_eq (scan_stray hbracket hinvalid') rfl rfl rfl rfl

/-- Brackets that a backslash before no bracket breaks off. -/
theorem scan_escape {inside rest : List Char} (h : IsInside inside)
    (hrest : rest.head? ≠ some ']') :
    scan '[' (inside ++ '\\' :: rest) =
      { faulty .unterminatedQuotedIdentifier (inside.length + 1) with quoted := true } := by
  have hlength : bracketedLength 0 (inside ++ '\\' :: rest) = (inside.length + 1, false) := by
    rw [bracketed_append h, bracketedLength, Nat.zero_add]
    rintro text rfl
    exact hrest rfl
  show scanBracketed _ = _
  rw [scanBracketed, hlength]

/-- There is no bracket in a gap. -/
theorem Gap.head_ne {rest : List Char} (h : Gap rest) : rest.head? ≠ some ']' := by
  cases h with
  | none => exact nofun
  | space text => exact fun heq => absurd (Option.some.inj heq) (by decide)

/-- A token that is not blank is found again before a gap. If the text ends with it, so that it
might have reached further in another one, nothing follows. -/
theorem scan_set_apart {c : Char} {text rest : List Char} (hblank : Text.isBlank c = false)
    (hgap : Gap rest) (hrest : text.drop (scan c text).tail = [] → rest = []) :
    FoundAgain c (scan c text) (text.take (scan c text).tail) rest := by
  rcases found_scan c text with hfound | ⟨hinvalid, hstray, hnone⟩
  · exact hfound.found_again (scan_sound c text) hblank hgap
  · generalize htext : c :: text = full at hstray
    generalize hcovered : c :: text.take (scan c text).tail = covered at hstray
    cases hstray with
    | character hbracket =>
        obtain ⟨rfl, rfl⟩ := List.cons.inj htext
        rw [(List.cons.inj hcovered).2]
        exact found_again_stray hblank hbracket hinvalid hnone hgap
    | empty =>
        obtain ⟨rfl, rfl⟩ := List.cons.inj htext
        exact .of_eq rfl rfl rfl rfl rfl
    | @escape inside after hinside hafter =>
        obtain ⟨rfl, rfl⟩ := List.cons.inj htext
        rw [(List.cons.inj hcovered).2, scan_escape hinside hafter]
        have hscan := scan_escape hinside hgap.head_ne
        rw [← List.singleton_append, ← List.append_assoc] at hscan
        exact .of_eq hscan (by simp [faulty]) rfl rfl rfl
    | rest hinside =>
        obtain ⟨rfl, rfl⟩ := List.cons.inj htext
        have htake := (List.cons.inj hcovered).2
        have hdrop : text.drop (scan '[' text).tail = [] := by
          have hlength := congrArg List.length (List.take_append_drop (scan '[' text).tail text)
          rw [htake, List.length_append] at hlength
          exact List.length_eq_zero_iff.1 (by omega)
        rw [hrest hdrop, htake]
        refine ⟨?_, ?_, ?_, ?_, ?_⟩ <;> rw [List.append_nil]
        · exact htake
        · exact hdrop

/-- A token is blank exactly if its first character is. -/
theorem kind_eq_blank_iff (c : Char) (text : List Char) :
    (scan c text).kind = .blank ↔ Text.isBlank c = true := by
  constructor
  · intro hkind
    by_contra hblank
    rw [Bool.not_eq_true] at hblank
    rcases found_scan c text with hfound | ⟨hinvalid, -, -⟩
    · exact hfound.kind_ne_blank hblank hkind
    · exact absurd (hinvalid.symm.trans hkind) (by decide)
  · intro hblank
    rw [scan, if_pos hblank]
    rfl

end Lexeme

namespace Token

open Lexeme

/-! ## The words of a source -/

/-- The significant tokens after a first token that does not end the input. -/
theorem program_cons {token : Token} (h : token.kind ≠ .endOfInput) (tokens : List Token) :
    program (token :: tokens).toArray = significant [token] ++ program tokens.toArray := by
  rw [program, List.toList_toArray, List.takeWhile_cons_of_pos (by simpa using h),
    ← List.singleton_append, significant_append]
  rfl

/-- Wherever a text stands, the significant ones of its tokens have the given contents. -/
def Reads (text : List Char) (contents : List Content) : Prop :=
  ∀ start tokens, Cut start text tokens → (program tokens.toArray).map content = contents

namespace Reads

variable {c : Char} {text covered rest : List Char} {contents : List Content}

/-- The empty text has no significant tokens. -/
theorem nil : Reads [] [] := by
  intro start tokens hcut
  cases hcut with
  | done => rfl

/-- A space in front of a token does not change the significant tokens. -/
theorem space (h : Reads (c :: text) contents) (hblank : Text.isBlank c = false) :
    Reads (' ' :: c :: text) contents := by
  intro start tokens hcut
  have htail : (scan ' ' (c :: text)).tail = 0 := by
    show ((c :: text).takeWhile Text.isBlank).length = 0
    rw [List.takeWhile_cons_of_neg (Bool.not_eq_true _ ▸ hblank), List.length_nil]
  have hkind : (scan ' ' (c :: text)).kind = .blank := (kind_eq_blank_iff ..).2 (by decide)
  cases hcut with
  | token htoken hcut =>
      rw [htail, List.drop_zero] at hcut
      rw [program_cons (htoken ▸ (scan_sound ..).kind_ne), List.map_append, h _ _ hcut, htoken]
      simp [significant, toToken, hkind]

/-- A token that is found again in front of a text is the first one. -/
theorem word {lexeme : Lexeme} (h : Reads rest contents) (hfound : FoundAgain c lexeme covered rest)
    (hblank : Text.isBlank c = false) (start : Position) :
    Reads (c :: (covered ++ rest)) ((lexeme.toToken (c :: covered) start).content :: contents) := by
  intro start' tokens hcut
  have hkind : (scan c (covered ++ rest)).kind ≠ .blank :=
    mt (kind_eq_blank_iff ..).1 (by rw [hblank]; decide)
  cases hcut with
  | token htoken hcut =>
      rw [hfound.drop_eq] at hcut
      rw [program_cons (htoken ▸ (scan_sound ..).kind_ne), htoken, significant_singleton hkind,
        List.singleton_append, List.map_cons, h _ _ hcut, hfound.take_eq]
      congr 1
      simp only [content, toToken, Lexeme.value, hfound.kind_eq, hfound.quoted_eq, hfound.cause_eq,
        Option.map_map]
      rfl

end Reads

/-- The words that follow the first one, each of them after a space. -/
def trailing (words : List String) : List Char := words.flatMap fun word => ' ' :: word.toList

/-- Words with single spaces between them are the first word and those that follow it. -/
theorem intercalate_cons (word : String) (words : List String) :
    (" ".intercalate (word :: words)).toList = word.toList ++ trailing words := by
  induction words generalizing word with
  | nil => simp [trailing]
  | cons next words ih =>
      rw [String.intercalate_cons_cons, String.toList_append, String.toList_append, ih,
        List.append_assoc]
      rfl

/-- A word starts with a character that is not blank. -/
def IsWord (word : String) : Prop :=
  ∃ c covered, word.toList = c :: covered ∧ Text.isBlank c = false

/-- What follows the first word reads as the words themselves. -/
theorem Reads.trailing {words : List String} {contents : List Content}
    (h : Reads (" ".intercalate words).toList contents) (hwords : ∀ word ∈ words, IsWord word) :
    Gap (trailing words) ∧ Reads (trailing words) contents := by
  cases words with
  | nil => exact ⟨.none, h⟩
  | cons word words =>
      obtain ⟨c, covered, hword, hblank⟩ := hwords word (List.mem_cons_self ..)
      rw [intercalate_cons, hword] at h
      have htrailing : Token.trailing (word :: words) =
          ' ' :: (c :: (covered ++ Token.trailing words)) := by
        rw [Token.trailing, List.flatMap_cons, hword]
        rfl
      rw [htrailing]
      exact ⟨.space _, h.space hblank⟩

/-- The significant tokens of a text, written with single spaces between them, are read as the same
tokens. -/
theorem Cut.respaced {source file : String} {before text : List Char} {tokens : List Token}
    (h : Cut ⟨file, Text.byteLength before⟩ text tokens)
    (hsource : source.toList = before ++ text) :
    ∃ words : List String, (∀ word ∈ words, IsWord word) ∧
      (program tokens.toArray).map (fun token => token.span.slice? source) = words.map some ∧
      Reads (" ".intercalate words).toList ((program tokens.toArray).map content) := by
  generalize hstart : (⟨file, Text.byteLength before⟩ : Position) = start at h
  induction h generalizing before with
  | done => exact ⟨[], fun _ hmem => absurd hmem List.not_mem_nil, rfl, .nil⟩
  | @token start c text token tokens htoken hcut ih =>
      subst hstart
      have hplaced : Placed file source.toList before c text token := ⟨hsource, htoken⟩
      have hstop : (⟨file, Text.byteLength (before ++ c :: text.take (scan c text).tail)⟩ :
          Position) = token.span.stop := by
        rw [htoken, Text.byte_length_append]
        rfl
      obtain ⟨words, hwords, hslices, hreads⟩ :=
        ih (hplaced.split.trans (List.append_assoc ..).symm) hstop
      rw [program_cons hplaced.kind_ne]
      by_cases hblank : Text.isBlank c = true
      · have hkind : token.kind = .blank := by
          rw [htoken]
          exact (kind_eq_blank_iff ..).2 hblank
        have hnone : significant [token] = [] := by simp [significant, hkind]
        rw [hnone]
        exact ⟨words, hwords, hslices, hreads⟩
      · have hkind : token.kind ≠ .blank := by
          rw [htoken]
          exact mt (kind_eq_blank_iff ..).1 hblank
        rw [Bool.not_eq_true] at hblank
        rw [significant_singleton hkind]
        obtain ⟨hgap, hreads⟩ := hreads.trailing hwords
        -- no words follow a token that ends the text
        have hrest : text.drop (scan c text).tail = [] → trailing words = [] := by
          intro hdrop
          rw [hdrop] at hcut
          cases hcut with
          | done =>
              obtain rfl := List.map_eq_nil_iff.1 hslices.symm
              rfl
        have hword := hreads.word (scan_set_apart hblank hgap hrest) hblank
          ⟨file, Text.byteLength before⟩
        rw [← htoken] at hword
        refine ⟨String.ofList (c :: text.take (scan c text).tail) :: words, ?_, ?_, ?_⟩
        · exact List.forall_mem_cons.2 ⟨⟨c, _, String.toList_ofList .., hblank⟩, hwords⟩
        · rw [List.singleton_append, List.map_cons, List.map_cons, hplaced.slice_eq, hslices]
        · rw [intercalate_cons, String.toList_ofList]
          exact hword

/-- The significant tokens of a source, written as they stand in it with single spaces between them,
are read as the same tokens: as many, with the same kinds, values, quotation and causes, in the same
order. -/
theorem read_respaced (source file file' : String) :
    ∃ words : List String,
      (program (read source file)).map (fun token => token.span.slice? source) = words.map some ∧
        (program (read (" ".intercalate words) file')).map content =
          (program (read source file)).map content := by
  have hcut : Cut ⟨file, Text.byteLength []⟩ source.toList (read source file).toList :=
    read_cut source file
  obtain ⟨words, -, hslices, hreads⟩ := hcut.respaced rfl
  exact ⟨words, hslices, hreads _ _ (read_cut _ file')⟩

end Token

end LetScript

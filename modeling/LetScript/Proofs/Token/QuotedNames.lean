import LetScript.Proofs.Token.LongestMatch

/-!
# Quoted identifiers stand for their names

`Token.quote` writes a name between brackets, each closing bracket in it after a backslash. The
reader takes this text for a quoted identifier with that name, whatever follows it, and every quoted
identifier is written in just this way (`Token.quoted_names_round_trip`). The reader finds the end
of the brackets by looking at single characters, while the name is what is left when all backslashes
are deleted. The two fit together because a backslash stands before nothing but a closing bracket
(`Lexeme.IsInside`).
-/

namespace LetScript

namespace Lexeme

/-- A name as it is written between brackets: a closing bracket follows a backslash. -/
def escape (name : List Char) : List Char :=
  name.flatMap fun c => if c = ']' then ['\\', ']'] else [c]

/-- A name between brackets without its backslashes. -/
def unescape (inside : List Char) : List Char := inside.filter (· ≠ '\\')

/-- A closing bracket follows a backslash. -/
@[simp] theorem escape_bracket (name : List Char) :
    escape (']' :: name) = '\\' :: ']' :: escape name := rfl

/-- Any other character stands for itself. -/
theorem escape_cons {c : Char} (h : c ≠ ']') (name : List Char) :
    escape (c :: name) = c :: escape name := by
  rw [escape, List.flatMap_cons, if_neg h]
  rfl

/-- Backslashes are left out. -/
@[simp] theorem unescape_backslash (inside : List Char) :
    unescape ('\\' :: inside) = unescape inside := rfl

/-- Any other character stands for itself. -/
theorem unescape_cons {c : Char} (h : c ≠ '\\') (inside : List Char) :
    unescape (c :: inside) = c :: unescape inside :=
  List.filter_cons_of_pos (by simpa using h)

/-- A name without a backslash may be written between brackets. -/
theorem is_inside_escape {name : List Char} (h : '\\' ∉ name) : IsInside (escape name) := by
  induction name with
  | nil => exact .nil
  | cons c name ih =>
      obtain ⟨hc, hname⟩ := not_or.1 (mt List.mem_cons.2 h)
      by_cases hbracket : c = ']'
      · subst hbracket
        exact .escaped (ih hname)
      · rw [escape_cons hbracket]
        exact .plain (Ne.symm hc) hbracket (ih hname)

/-- A name without a backslash is read back as it was written. -/
theorem unescape_escape {name : List Char} (h : '\\' ∉ name) : unescape (escape name) = name := by
  induction name with
  | nil => rfl
  | cons c name ih =>
      obtain ⟨hc, hname⟩ := not_or.1 (mt List.mem_cons.2 h)
      by_cases hbracket : c = ']'
      · subst hbracket
        rw [escape_bracket, unescape_backslash, unescape_cons (by decide), ih hname]
      · rw [escape_cons hbracket, unescape_cons (Ne.symm hc), ih hname]

/-- What stands between brackets is written back as it was read. -/
theorem escape_unescape {inside : List Char} (h : IsInside inside) :
    escape (unescape inside) = inside := by
  induction h with
  | nil => rfl
  | escaped _ ih => rw [unescape_backslash, unescape_cons (by decide), escape_bracket, ih]
  | plain hbackslash hbracket _ ih =>
      rw [unescape_cons hbackslash, escape_cons hbracket, ih]

/-- Nothing is written only for the empty name. -/
theorem escape_ne_nil {name : List Char} (h : name ≠ []) : escape name ≠ [] := by
  obtain ⟨c, name, rfl⟩ := List.exists_cons_of_ne_nil h
  by_cases hbracket : c = ']'
  · subst hbracket
    exact List.cons_ne_nil _ _
  · rw [escape_cons hbracket]
    exact List.cons_ne_nil _ _

/-- Brackets around an inside are a quoted identifier, whatever follows them. -/
theorem scan_quoted {inside : List Char} (hne : inside ≠ []) (hinside : IsInside inside)
    (rest : List Char) :
    scan '[' (inside ++ ']' :: rest) =
      { plain .identifier (inside.length + 1) with quoted := true } := by
  have hlength := bracketed_of_inside hinside 0 rest
  have hpos := List.length_pos_iff.2 hne
  rw [Nat.zero_add] at hlength
  exact scan_bracketed_closed hlength (by omega)

/-- The value of a quoted identifier is what stands between its brackets, without the
backslashes. -/
theorem value_quoted {lexeme : Lexeme} (hkind : lexeme.kind = .identifier)
    (hquoted : lexeme.quoted) (inside : List Char) :
    lexeme.value ('[' :: (inside ++ [']'])) = String.ofList (unescape inside) := by
  rw [value, if_pos ⟨hkind, hquoted⟩, List.tail_cons, List.dropLast_concat]
  rfl

/-- A lexeme that is written in brackets is an identifier, and has an inside. -/
theorem Matches.exists_inside {text : List Char} {kind : Kind} (h : Matches text kind true) :
    kind = .identifier ∧
      ∃ inside, inside ≠ [] ∧ IsInside inside ∧ text = '[' :: (inside ++ [']']) := by
  cases h with
  | quoted hne hinside => exact ⟨rfl, _, hne, hinside, rfl⟩

end Lexeme

namespace Token

/-- A name between brackets. -/
def quote (name : String) : String :=
  String.ofList ('[' :: (Lexeme.escape name.toList ++ [']']))

/-- A name between brackets is read as a quoted identifier that stands for it. -/
theorem read_quote {name : String} (hne : name ≠ "") (hbackslash : '\\' ∉ name.toList)
    (rest file : String) :
    (read (quote name ++ rest) file).toList.head? =
      some ⟨.identifier, name, ⟨⟨file, 0⟩, ⟨file, (quote name).utf8ByteSize⟩⟩, true, none⟩ := by
  have hname : name.toList ≠ [] := fun h => hne (String.toList_inj.1 h)
  have hscan := Lexeme.scan_quoted (Lexeme.escape_ne_nil hname)
    (Lexeme.is_inside_escape hbackslash) rest.toList
  have htext : (quote name ++ rest).toList =
      '[' :: (Lexeme.escape name.toList ++ ']' :: rest.toList) := by
    rw [String.toList_append, quote, String.toList_ofList]
    simp
  have hcut := read_cut (quote name ++ rest) file
  rw [htext] at hcut
  generalize (read (quote name ++ rest) file).toList = tokens at hcut ⊢
  cases hcut with
  | @token _ _ _ token tokens htoken _ =>
      rw [hscan] at htoken
      -- the token covers the brackets and what is written between them
      have htake : (Lexeme.escape name.toList ++ ']' :: rest.toList).take
          ((Lexeme.escape name.toList).length + 1) = Lexeme.escape name.toList ++ [']'] :=
        List.take_length_add_append ..
      have hsize : Text.byteLength ('[' :: (Lexeme.escape name.toList ++ [']'])) =
          (quote name).utf8ByteSize := by
        rw [← Text.byte_length_to_list, quote, String.toList_ofList]
      rw [List.head?_cons, htoken]
      refine congrArg some ?_
      simp only [Lexeme.toToken, Lexeme.plain, htake, hsize, Nat.zero_add, Option.map_none,
        Token.mk.injEq, and_true, true_and]
      rw [Lexeme.value_quoted rfl rfl, Lexeme.unescape_escape hbackslash, String.ofList_toList]

/-- A quoted identifier is the quote of its value. -/
theorem Placed.quoted_value {file source : String} {before rest : List Char} {c : Char}
    {token : Token} (h : Placed file source.toList before c rest token)
    (hkind : token.kind = .identifier) (hquoted : token.quoted) :
    token.value ≠ "" ∧ '\\' ∉ token.value.toList ∧
      token.span.slice? source = some (quote token.value) := by
  have hslice := h.slice_eq
  rw [h.token_eq] at hkind hquoted
  have hmatches : Lexeme.Matches (c :: rest.take (Lexeme.scan c rest).tail)
      (Lexeme.scan c rest).kind (Lexeme.scan c rest).quoted := by
    rcases Lexeme.found_scan c rest with hmatches | ⟨hinvalid, -⟩
    · exact hmatches
    · cases hinvalid.symm.trans hkind
  have htrue : (Lexeme.scan c rest).quoted = true := hquoted
  rw [htrue] at hmatches
  obtain ⟨-, inside, hne, hinside, htext⟩ := hmatches.exists_inside
  have hvalue : token.value = String.ofList (Lexeme.unescape inside) := by
    rw [h.token_eq]
    show Lexeme.value _ _ = _
    rw [htext, Lexeme.value_quoted hkind hquoted]
  have hescape := Lexeme.escape_unescape hinside
  rw [hvalue, String.toList_ofList]
  refine ⟨fun hempty => hne ?_, fun hmem => ?_, ?_⟩
  · have hnil := congrArg String.toList hempty
    rw [String.toList_ofList] at hnil
    rw [← hescape, hnil]
    rfl
  · exact of_decide_eq_true (List.mem_filter.1 hmem).2 rfl
  · rw [hslice, htext, quote, String.toList_ofList, hescape]

/-- Quoted identifiers stand for their names. A name that is not empty and has no backslash, written
between brackets, is the first token of any text that starts with it; and every quoted identifier of
a source is such a name, written in this way. -/
theorem quoted_names_round_trip :
    (∀ name rest file : String, name ≠ "" → '\\' ∉ name.toList →
      (read (quote name ++ rest) file).toList.head? =
        some ⟨.identifier, name, ⟨⟨file, 0⟩, ⟨file, (quote name).utf8ByteSize⟩⟩, true, none⟩) ∧
    ∀ source file : String, ∀ token ∈ (read source file).toList, token.kind = .identifier →
      token.quoted → token.value ≠ "" ∧ '\\' ∉ token.value.toList ∧
        token.span.slice? source = some (quote token.value) := by
  refine ⟨fun name rest file hne hbackslash => read_quote hne hbackslash rest file, ?_⟩
  intro source file token htoken hkind hquoted
  obtain ⟨front, htokens, hfront⟩ := read_placed source file
  rw [htokens] at htoken
  rcases List.mem_append.1 htoken with htoken | htoken
  · obtain ⟨before, c, rest, hplaced⟩ := hfront token htoken
    exact hplaced.quoted_value hkind hquoted
  · rw [List.mem_singleton.1 htoken] at hkind
    cases hkind

/-- The name `a]b` is written `[a\]b]`, also before another closing bracket. -/
theorem quoted_names_round_trip_bracket :
    "a]b" ≠ "" ∧ '\\' ∉ "a]b".toList ∧ quote "a]b" = "[a\\]b]" ∧
      (read (quote "a]b" ++ "]") anonymousFile).toList.head? =
        some ⟨.identifier, "a]b", ⟨⟨anonymousFile, 0⟩, ⟨anonymousFile, (quote "a]b").utf8ByteSize⟩⟩,
          true, none⟩ := by
  have hne : "a]b" ≠ "" := by decide
  have hbackslash : '\\' ∉ "a]b".toList := by decide
  exact ⟨hne, hbackslash, rfl, quoted_names_round_trip.1 "a]b" "]" anonymousFile hne hbackslash⟩

end Token

end LetScript

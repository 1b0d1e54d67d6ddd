import LetScript.Proofs.JavaScript.Document
import LetScript.Proofs.Number.RoundTrip
import LetScript.Proofs.Script.Image
import LetScript.Proofs.Script.Names
import LetScript.Script.Print

/-!
# Words, strings and numbers of the generated code

The names that the generator writes are names of variables in JavaScript (`IsName`), its string
literals are scanned as the texts they stand for, and its numbers as the numbers they stand for.
-/

namespace LetScript.Script

open JavaScript

/-! ## Names -/

/-- The name of a variable in JavaScript. -/
structure IsName (name : String) : Prop where
  chars : ∃ c rest, name.toList = c :: rest ∧ isNameStart c ∧ ∀ d ∈ rest, isNamePart d
  token : Token.ofWord? name.toList = some (.name name)

/-- A character that starts a name is neither a blank nor the end of a line. -/
theorem step_name_start {c : Char} (h : isNameStart c) :
    Mode.idle.step c = some ([], .word [c]) := by
  have hblank : c ≠ ' ' := by
    rintro rfl
    exact absurd h (by decide)
  have hline : c ≠ '\n' := by
    rintro rfl
    exact absurd h (by decide)
  simp [Mode.step, Mode.next, Mode.start, h, hblank, hline]

/-- A name is scanned as a word. -/
theorem IsName.run {name : String} (h : IsName name) :
    Mode.idle.run name.toList = some ([], .word name.toList) := by
  obtain ⟨c, rest, hname, hstart, hrest⟩ := h.chars
  rw [hname]
  simp [Mode.run, step_name_start hstart, Mode.run_word hrest]

/-- Before an operand, a text that starts with a name is scanned as between tokens. -/
theorem IsName.opening {name : String} (h : IsName name) {chars : List Char}
    {tokens : List JavaScript.Token} {after : Phase}
    (hscans : Scans .between (name.toList ++ chars) tokens after) :
    Scans .opening (name.toList ++ chars) tokens after := by
  obtain ⟨c, rest, hname, hstart, -⟩ := h.chars
  rw [hname] at hscans ⊢
  exact hscans.opening (by simp [isOperandStart, hstart])

/-- A name is scanned as a single token. -/
theorem IsName.scans {name : String} (h : IsName name) :
    Scans .opening name.toList [.name name] .ended := by
  have hscans : Scans .between name.toList [.name name] .ended := by
    refine .of_run (.word h.token) ?_
    simp [h.run, Mode.pending, Mode.pending?, h.token]
  rw [← List.append_nil name.toList] at hscans ⊢
  exact h.opening hscans

/-- A word that is not reserved is a name. -/
theorem of_word_name {name : String} (h : name ∉ reservedWords) :
    Token.ofWord? name.toList = some (.name name) := by
  have hwords : ∀ word ∈ keywords.map (·.1) ++ JavaScript.reserved,
      String.ofList word ∈ reservedWords := by decide
  have hother (word : List Char) (hword : word ∈ keywords.map (·.1) ++ JavaScript.reserved) :
      name.toList ≠ word := by
    rintro rfl
    have hmem := hwords _ hword
    rw [String.ofList_toList] at hmem
    exact h hmem
  have hlookup : keywords.lookup name.toList = none := by
    refine List.lookup_eq_none_iff.2 fun entry hentry => ?_
    have hmem : entry.1 ∈ keywords.map (·.1) := List.mem_map_of_mem hentry
    simpa using hother entry.1 (List.mem_append_left _ hmem)
  have hreserved : name.toList ∉ JavaScript.reserved := fun hmem =>
    hother _ (List.mem_append_right _ hmem) rfl
  unfold Token.ofWord?
  rw [hlookup]
  simp [hreserved]

/-- A word of the characters of names that is not reserved is a name. -/
theorem is_name_of_not_reserved {name : String} {c : Char} {rest : List Char}
    (hname : name.toList = c :: rest) (hstart : isNameStart c) (hrest : ∀ d ∈ rest, isNamePart d)
    (hreserved : name ∉ reservedWords) : IsName name :=
  ⟨⟨c, rest, hname, hstart, hrest⟩, of_word_name hreserved⟩

/-- The characters of plain names are characters of names. -/
theorem name_part_of_plain {c : Char} (h : isPlainPart c) : isNamePart c := by
  unfold isNamePart
  exact Bool.or_eq_true_iff.2 (.inl h)

/-- The first characters of plain names may start a name. -/
theorem name_start_of_plain {c : Char} (h : isPlainStart c) : isNameStart c := by
  unfold isNameStart
  exact Bool.or_eq_true_iff.2 (.inl h)

/-- A name, a point and a plain name are scanned as a name and a property. -/
theorem IsName.scans_property {object name : String} (h : IsName object) (hplain : isPlain name) :
    Scans .opening (object ++ "." ++ name).toList [.name object, .property name] .ended := by
  obtain ⟨c, rest, hname, hplainStart, hplainRest⟩ := exists_cons_of_plain hplain
  have hstart := name_start_of_plain hplainStart
  have hrest (d : Char) (hd : d ∈ rest) : isNamePart d := name_part_of_plain (hplainRest d hd)
  have hpoint : (Mode.word object.toList).run ".".toList = some ([.name object], .point) := by
    have hpart : isNamePart '.' = false := by decide
    show (Mode.word object.toList).run ['.'] = _
    simp only [Mode.run, Mode.step, hpart, h.token]
    rfl
  have hproperty : Mode.point.run name.toList = some ([], .property name.toList) := by
    rw [hname]
    simp [Mode.run, Mode.step, hstart, Mode.run_property hrest]
  rw [String.toList_append, String.toList_append, List.append_assoc]
  refine h.opening (.of_run (.property name.toList) ?_)
  rw [Mode.run_append h.run (Mode.run_append hpoint hproperty)]
  simp [Mode.pending, Mode.pending?]

/-- The variable for a name of the program is a name. -/
theorem is_name_mangle (name : String) : IsName (mangle name) := by
  obtain ⟨c, rest, hname, hstart, hrest⟩ := mangle_chars name
  refine is_name_of_not_reserved hname ?_ ?_ (mangle_not_reserved name)
  · rcases hstart with hstart | rfl
    · exact name_start_of_plain hstart
    · rfl
  · intro d hd
    rcases hrest d hd with hplain | rfl
    · exact name_part_of_plain hplain
    · rfl

/-- A name that the generator makes up of a dollar sign, letters and a number. -/
theorem is_name_numbered {stem : String} {rest : List Char} (hstem : stem.toList = '$' :: rest)
    (hrest : ∀ d ∈ rest, isNamePart d) (n : Nat) : IsName (stem ++ n.repr) := by
  have hlist : (stem ++ n.repr).toList = '$' :: (rest ++ Nat.toDigits 10 n) := by
    rw [String.toList_append, hstem, Nat.repr_eq_ofList_toDigits, String.toList_ofList]
    rfl
  refine is_name_of_not_reserved hlist (by decide) ?_ ?_
  · intro d hd
    rcases List.mem_append.1 hd with hd | hd
    · exact hrest d hd
    · have hdigit := Nat.isDigit_of_mem_toDigits (by decide) (by decide) hd
      simp [isNamePart, Char.isAlphanum, hdigit]
  · intro hmem
    have hwords : ∀ word ∈ reservedWords, word.toList.head? ≠ some '$' := by decide
    exact hwords _ hmem (by rw [hlist]; rfl)

/-- The variable of a scope is a name. -/
theorem is_name_scope_variable (scope : Nat) : IsName (scopeVariable scope) :=
  is_name_numbered rfl (List.all_eq_true.1 rfl) scope

/-- The variable of a let is a name. -/
theorem is_name_record_variable (bindings : Bindings) (id : NodeId) :
    IsName (recordVariable bindings id) := by
  unfold recordVariable
  split
  · exact is_name_scope_variable _
  · exact is_name_numbered rfl (List.all_eq_true.1 rfl) id

/-- The parameters of a function are names. -/
theorem is_name_of_mem_param_names {names : List String} {n : Nat} {chosen : String}
    (h : chosen ∈ (paramNames names n).1) : IsName chosen := by
  rcases of_mem_param_names h with ⟨name, -, rfl⟩ | ⟨m, -, rfl⟩
  · exact is_name_mangle name
  · exact is_name_numbered rfl (List.all_eq_true.1 rfl) m

/-! ## Strings -/

/-- The value of hexadecimal digits. -/
def hexCode? (digits : List Char) : Option Nat :=
  digits.foldlM (fun value digit => (hexValue? digit).map (16 * value + ·)) 0

/-- An escape of four digits is scanned as the character with this code point. -/
theorem run_unicode {text : List Char} {a b c d : Char} {code : Nat} {char : Char}
    (hcode : hexCode? [a, b, c, d] = some code) (hchar : charOf? code = some char) :
    (Mode.unicode text 0 0).run [a, b, c, d] = some ([], .string (text ++ [char])) := by
  simp only [hexCode?, List.foldlM_cons, List.foldlM_nil, Option.bind_eq_bind,
    Option.bind_eq_some_iff, Option.map_eq_some_iff] at hcode
  obtain ⟨_, ⟨w, hw, rfl⟩, _, ⟨x, hx, rfl⟩, _, ⟨y, hy, rfl⟩, _, ⟨z, hz, rfl⟩, hcode⟩ := hcode
  obtain rfl := Option.some.inj hcode
  rw [Nat.mul_zero, Nat.zero_add] at hchar
  simp [Mode.run, Mode.step, hw, hx, hy, hz, hchar]

/-- A character is found by its code point. -/
theorem char_of_to_nat (c : Char) : charOf? c.toNat = some c := by
  have hvalid : c.toNat.isValidChar := c.valid
  rw [charOf?, if_pos hvalid, Char.ofNat_toNat]

/-- A character of a string literal is scanned as the character it stands for. -/
theorem run_literal_char (text : List Char) (c : Char) :
    (Mode.string text).run (literalChar c) = some ([], .string (text ++ [c])) := by
  unfold literalChar
  split
  · rfl
  · rfl
  · rfl
  · rfl
  · rfl
  · rfl
  · rfl
  next hquote hbackslash hfeed hreturn _ hline hparagraph =>
    split
    next hcontrol =>
      have hdigits : ∀ n < 32, ∃ a b, Text.hexFilled 4 n = ['0', '0', a, b] ∧
          hexCode? ['0', '0', a, b] = some n := by
        intro n hn
        refine ⟨Nat.digitChar (n / 16), Nat.digitChar (n % 16), ?_⟩
        revert n
        decide
      obtain ⟨a, b, hfilled, hcode⟩ := hdigits c.toNat hcontrol
      have hstart : (Mode.string text).run ['\\', 'u'] = some ([], .unicode text 0 0) := rfl
      rw [unicodeEscape, hfilled]
      exact Mode.run_append hstart (run_unicode hcode (char_of_to_nat c))
    next =>
      have hmem : c ∉ ['\n', '\r', '\u2028', '\u2029'] := by
        simp only [List.mem_cons, List.not_mem_nil, or_false, not_or]
        exact ⟨hfeed, hreturn, hline, hparagraph⟩
      simp only [Mode.run, Mode.step, if_neg hquote, if_neg hbackslash, if_neg hmem]
      rfl

/-- The characters of a string literal are scanned as the text they stand for. -/
theorem run_literal_chars (before chars : List Char) :
    (Mode.string before).run (chars.flatMap literalChar) =
      some ([], .string (before ++ chars)) := by
  induction chars generalizing before with
  | nil => rw [List.append_nil]; rfl
  | cons c chars ih =>
      have happend := Mode.run_append (run_literal_char before c) (ih (before ++ [c]))
      rwa [List.append_assoc] at happend

/-- A string literal is scanned as its text. -/
theorem scans_string_literal (text : String) :
    Scans .between (stringLiteral text).toList [.string text] .between := by
  have hclose : (Mode.string text.toList).run ['"'] = some ([.string text], .idle) := by
    simp [Mode.run, Mode.step]
  have hopen : Mode.idle.run ['"'] = some ([], .string []) := rfl
  refine .of_run .between ?_
  rw [stringLiteral, String.toList_ofList, List.cons_append, ← List.singleton_append,
    Mode.run_append hopen (Mode.run_append (run_literal_chars [] text.toList) hclose)]
  rfl

/-! ## Numbers -/

/-- A digit between tokens starts a number. -/
theorem step_digit {c : Char} (h : c.isDigit) : Mode.idle.step c = some ([], .whole [c]) := by
  have hcode : ∀ n < 58, 48 ≤ n → isNameStart (Char.ofNat n) = false ∧ Char.ofNat n ≠ ' ' ∧
      Char.ofNat n ≠ '\n' := by decide
  have hbounds : 48 ≤ c.toNat ∧ c.toNat ≤ 57 := by
    simpa [Char.isDigit, UInt32.le_iff_toNat_le] using h
  obtain ⟨hname, hblank, hline⟩ := hcode c.toNat (by omega) hbounds.1
  rw [Char.ofNat_toNat] at hname hblank hline
  simp [Mode.step, Mode.next, Mode.start, h, hname, hblank, hline]

/-- The digits before the point are scanned as such. -/
theorem run_is_whole {whole : List Char} (h : Numeral.IsWhole whole) :
    Mode.idle.run whole = some ([], .whole whole) := by
  obtain ⟨hdigits, rfl | ⟨c, rest, rfl, hc⟩⟩ := h
  · rfl
  · obtain ⟨hfirst, hrest⟩ := List.forall_mem_cons.1 hdigits
    simp [Mode.run, step_digit hfirst, Mode.run_whole hc hrest]

/-- Digits are scanned as the number they stand for. -/
theorem scans_written {whole fraction : List Char} (hwhole : Numeral.IsWhole whole)
    (hfraction : ∀ c ∈ fraction, c.isDigit) :
    Scans .opening (Numeral.written whole fraction) [.ofDigits whole fraction] .ended := by
  obtain ⟨c, rest, hcons, hc⟩ := hwhole.exists_cons
  have hrun := run_is_whole hwhole
  have hscans : Scans .between (Numeral.written whole fraction) [.ofDigits whole fraction]
      .ended := by
    unfold Numeral.written
    split
    next hempty =>
      obtain rfl := List.isEmpty_iff.1 hempty
      refine .of_run (.whole whole) ?_
      rw [hrun]
      rfl
    next hne =>
      have hpoint : (Mode.whole whole).run ['.'] = some ([], .fraction whole []) := rfl
      have hrest : (Mode.fraction whole []).run fraction = some ([], .fraction whole fraction) :=
        Mode.run_fraction hfraction
      have hdigits : fraction ≠ [] := by simpa using hne
      refine .of_run (.fraction whole hdigits) ?_
      rw [← List.singleton_append, Mode.run_append hrun (Mode.run_append hpoint hrest)]
      simp [Mode.pending, Mode.pending?, hdigits]
  have hstart : ∃ chars, Numeral.written whole fraction = c :: chars := by
    unfold Numeral.written
    rw [hcons]
    split <;> exact ⟨_, rfl⟩
  obtain ⟨chars, hchars⟩ := hstart
  rw [hchars] at hscans ⊢
  exact hscans.opening (by simp [isOperandStart, hc])

/-- The text of a number is scanned as the number. -/
theorem scans_number_text {value : Binary64} (hfinite : value.magnitude < Binary64.infinity)
    (hpositive : value.negative = false) :
    Scans .opening (numberText value).toList [.number value] .ended := by
  have hinfinite : value.isInfinite = false := by simp [Binary64.isInfinite]; omega
  obtain ⟨whole, fraction, htext, hwhole, hfraction, hvalue⟩ := Binary64.to_text_written hfinite
  have htoken : Token.ofDigits whole fraction = .number value := by
    rw [Token.ofDigits, hvalue, ← hpositive]
  rw [numberText, if_neg (by simp [hinfinite]), htext, hpositive, ← htoken]
  exact scans_written hwhole hfraction

/-- The decimal digits of a natural number are scanned as the number. -/
theorem scans_repr (n : Nat) : Scans .opening n.repr.toList [.number (natural n)] .ended := by
  have hwhole : Numeral.IsWhole (Nat.toDigits 10 n) := by
    cases n with
    | zero => exact ⟨List.forall_mem_singleton.2 rfl, .inl rfl⟩
    | succ n =>
        have hdigits := Numeral.is_whole_digits (Nat.succ_pos n) 0
        rwa [List.replicate_zero, List.append_nil] at hdigits
  have htoken : Token.ofDigits (Nat.toDigits 10 n) [] = .number (natural n) := by
    rw [Token.ofDigits, List.append_nil, Numeral.digits_value_to_digits]
    rfl
  have hscans : Scans .opening (Numeral.written (Nat.toDigits 10 n) [])
      [.ofDigits (Nat.toDigits 10 n) []] .ended := scans_written hwhole nofun
  rw [Nat.repr_eq_ofList_toDigits, String.toList_ofList, ← htoken]
  exact hscans

end LetScript.Script

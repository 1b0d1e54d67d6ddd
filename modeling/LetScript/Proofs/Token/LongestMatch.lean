import LetScript.Proofs.Token.Lossless

/-!
# Tokens are longest matches

`Lexeme.Matches` says which texts are lexemes, and of which kind, without looking at how they are
found. At every place of a source text the reader takes the longest lexeme that starts there
(`Token.scan_longest_match`). Where no lexeme starts, the token is invalid: a single character,
or an opening bracket with what follows it up to the point where the brackets can no longer be
closed (`Lexeme.Stray`).
-/

namespace LetScript

namespace Lexeme

/-! ## The lexemes -/

/-- The characters between tokens. -/
def blanks : List Char :=
  ['\u0009', '\u000a', '\u000b', '\u000c', '\u000d', '\u0020', '\u00a0', '\u1680', '\u180e',
    '\u2000', '\u2001', '\u2002', '\u2003', '\u2004', '\u2005', '\u2006', '\u2007', '\u2008',
    '\u2009', '\u200a', '\u2028', '\u2029', '\u202f', '\u205f', '\u3000', '\ufeff']

/-- A character of `[A-Za-z$_]`. -/
def StartsName (c : Char) : Prop :=
  ('A' ≤ c ∧ c ≤ 'Z') ∨ ('a' ≤ c ∧ c ≤ 'z') ∨ c = '$' ∨ c = '_'

/-- A character of `[A-Za-z0-9$_]`. -/
def ContinuesName (c : Char) : Prop := StartsName c ∨ ('0' ≤ c ∧ c ≤ '9')

/-- One or more digits. -/
def IsDigits (text : List Char) : Prop := text ≠ [] ∧ ∀ c ∈ text, c.isDigit

/-- An optional fraction: a point and digits. -/
inductive IsFraction : List Char → Prop where
  | none : IsFraction []
  | some {digits : List Char} : IsDigits digits → IsFraction ('.' :: digits)

/-- An optional exponent: a mark, an optional sign and digits. -/
inductive IsExponent : List Char → Prop where
  | none : IsExponent []
  | some {mark : Char} {sign digits : List Char} : mark ∈ ['e', 'E'] →
      sign ∈ [[], ['+'], ['-']] → IsDigits digits → IsExponent (mark :: (sign ++ digits))

/-- Characters between brackets. A closing bracket among them follows a backslash, and a backslash
stands before nothing else. -/
inductive IsInside : List Char → Prop where
  | nil : IsInside []
  | escaped {text : List Char} : IsInside text → IsInside ('\\' :: ']' :: text)
  | plain {c : Char} {text : List Char} : c ≠ '\\' → c ≠ ']' → IsInside text → IsInside (c :: text)

/-- The lexemes that have only one text. -/
def fixedTexts : List (List Char × Kind) :=
  [(['='], .equals), (['=', '>'], .arrow), (['+'], .plus), (['-'], .dash), (['*'], .star),
    (['/'], .slash), ([';'], .semicolon), (['('], .openParen), ([')'], .closeParen),
    (['\x7b'], .openCurly), (['\x7d'], .closeCurly), (['^', '^'], .doubleCaret),
    (['.', '.', '.'], .ellipsis)]

/-- The words that are no names. -/
def keywords : List (List Char × Kind) :=
  [(['l', 'e', 't'], .letWord), (['f', 'n'], .fnWord), (['i', 'n'], .inWord)]

/-- A text is a lexeme of some kind, in brackets or not. -/
inductive Matches : List Char → Kind → Bool → Prop where
  | blanks {text : List Char} : text ≠ [] → (∀ c ∈ text, c ∈ blanks) → Matches text .blank false
  | number {whole fraction exponent : List Char} : IsDigits whole → IsFraction fraction →
      IsExponent exponent → Matches (whole ++ (fraction ++ exponent)) .number false
  | fixed {text : List Char} {kind : Kind} : (text, kind) ∈ fixedTexts → Matches text kind false
  | keyword {text : List Char} {kind : Kind} : (text, kind) ∈ keywords → Matches text kind false
  | name {c : Char} {text : List Char} : StartsName c → (∀ d ∈ text, ContinuesName d) →
      c :: text ∉ keywords.map Prod.fst → Matches (c :: text) .identifier false
  | quoted {inside : List Char} : inside ≠ [] → IsInside inside →
      Matches ('[' :: (inside ++ [']'])) .identifier true

/-- What an invalid token covers of a text in which no lexeme starts: a character, or an opening
bracket and what follows it up to a closing bracket, a backslash that stands before no bracket, or
the end of the text. -/
inductive Stray : List Char → List Char → Prop where
  | character {c : Char} {rest : List Char} : c ≠ '[' → Stray (c :: rest) [c]
  | empty {rest : List Char} : Stray ('[' :: ']' :: rest) ['[', ']']
  | escape {inside rest : List Char} : IsInside inside → rest.head? ≠ some ']' →
      Stray ('[' :: (inside ++ '\\' :: rest)) ('[' :: (inside ++ ['\\']))
  | rest {inside : List Char} : IsInside inside → Stray ('[' :: inside) ('[' :: inside)

/-! ## Classes of characters -/

/-- The reader skips the characters between tokens. -/
theorem mem_blanks_iff {c : Char} : c ∈ blanks ↔ Text.isBlank c := by
  have hcode (d : Char) : c = d ↔ c.toNat = d.toNat := Char.toNat_inj.symm
  simp only [blanks, List.mem_cons, List.not_mem_nil, or_false, hcode, Text.isBlank,
    Bool.or_eq_true, Bool.and_eq_true, decide_eq_true_eq, beq_iff_eq]
  simp only [Char.reduceToNat]
  omega

/-- The reader starts names with the characters of the class. -/
theorem starts_name_iff {c : Char} : StartsName c ↔ isNameStart c := by
  have halpha : c.isAlpha = (decide (65 ≤ c.val ∧ c.val ≤ 90) ||
      decide (97 ≤ c.val) && decide (c.val ≤ 122)) := rfl
  simp only [StartsName, isNameStart, halpha, Bool.or_eq_true, Bool.and_eq_true, decide_eq_true_eq,
    beq_iff_eq]
  exact or_assoc.symm.trans or_assoc.symm

/-- The reader continues names with the characters of the class. -/
theorem continues_name_iff {c : Char} : ContinuesName c ↔ isNamePart c := by
  have hpart : isNamePart c = (isNameStart c || c.isDigit) := by
    simp only [isNamePart, isNameStart, Char.isAlphanum]
    grind
  have hdigit : c.isDigit ↔ '0' ≤ c ∧ c ≤ '9' := by
    simp only [Char.isDigit, Bool.and_eq_true, decide_eq_true_eq]
    rfl
  rw [ContinuesName, starts_name_iff, hpart, Bool.or_eq_true, hdigit]

/-! ## Runs of characters -/

section Run

variable {isMember : Char → Bool}

/-- A run starts with its first part that belongs to the class, or it is that part. -/
theorem run_split {first rest text : List Char} (hfirst : ∀ c ∈ first, isMember c)
    (hrest : ∀ c, rest.head? = some c → isMember c = false) (h : first ++ rest <+: text) :
    (rest = [] ∧ first.length ≤ runLength isMember text) ∨
      (first.length = runLength isMember text ∧
        rest <+: text.drop (runLength isMember text)) := by
  induction first generalizing text with
  | nil =>
      cases rest with
      | nil => exact .inl ⟨rfl, Nat.zero_le _⟩
      | cons d rest =>
          obtain ⟨after, rfl⟩ := h
          have hrun : runLength isMember ([] ++ d :: rest ++ after) = 0 := by
            simp [runLength, hrest d rfl]
          rw [hrun]
          exact .inr ⟨rfl, List.prefix_append ..⟩
  | cons c first ih =>
      obtain ⟨hc, hfirst⟩ := List.forall_mem_cons.1 hfirst
      cases text with
      | nil => cases List.prefix_nil.1 h
      | cons d text =>
          obtain ⟨rfl, htail⟩ := List.cons_prefix_cons.1 h
          have hrun : runLength isMember (c :: text) = runLength isMember text + 1 := by
            simp [runLength, hc]
          rw [hrun, List.length_cons, List.drop_succ_cons]
          rcases ih hfirst htail with ⟨hnil, hle⟩ | ⟨hlength, hfront⟩
          · exact .inl ⟨hnil, by omega⟩
          · exact .inr ⟨by omega, hfront⟩

/-- A run is at least as long as any first part of the text in the class. -/
theorem le_run {first text : List Char} (hfirst : ∀ c ∈ first, isMember c) (h : first <+: text) :
    first.length ≤ runLength isMember text := by
  have hnone : ∀ c, ([] : List Char).head? = some c → isMember c = false := nofun
  have hfront : first ++ [] <+: text := by rwa [List.append_nil]
  rcases run_split hfirst hnone hfront with ⟨-, hle⟩ | ⟨heq, -⟩
  · exact hle
  · omega

/-- The characters of a run belong to the class. -/
theorem mem_run {text : List Char} {c : Char} (h : c ∈ text.take (runLength isMember text)) :
    isMember c := by
  unfold runLength at h
  rw [← List.prefix_iff_eq_take.1 (List.takeWhile_prefix isMember)] at h
  exact List.all_eq_true.1 List.all_takeWhile c h

end Run

/-! ## Numbers -/

/-- Digits that count with `lead` characters before them are the longest. -/
theorem le_digits_after (lead : Nat) {digits text : List Char} (hdigits : IsDigits digits)
    (h : digits <+: text) : lead + digits.length ≤ digitsAfter lead text := by
  have hle := le_run hdigits.2 h
  have hpos := List.length_pos_iff.2 hdigits.1
  unfold digitsAfter
  split
  · omega
  · omega

/-- Digits after the mark of an exponent have no sign before them. -/
theorem signed_length_of_digit {c : Char} {text : List Char} (hc : c.isDigit) :
    signedLength (c :: text) = digitsAfter 1 (c :: text) := by
  unfold signedLength
  split
  next heq =>
    obtain ⟨rfl, -⟩ := List.cons.inj heq
    exact absurd hc (by decide)
  next heq =>
    obtain ⟨rfl, -⟩ := List.cons.inj heq
    exact absurd hc (by decide)
  next => rfl

/-- An exponent is at most as long as the one that is found. -/
theorem le_exponent_length {exponent text : List Char} (hexponent : IsExponent exponent)
    (h : exponent <+: text) : exponent.length ≤ exponentLength text := by
  cases hexponent with
  | none => exact Nat.zero_le _
  | @some mark sign digits hmark hsign hdigits =>
      obtain ⟨after, rfl⟩ := h
      have hsigned : (sign ++ digits).length + 1 ≤ signedLength (sign ++ digits ++ after) := by
        simp only [List.mem_cons, List.not_mem_nil, or_false] at hsign
        rcases hsign with rfl | rfl | rfl
        · have hle := le_digits_after 1 hdigits (List.prefix_append digits after)
          obtain ⟨d, digits, rfl⟩ := List.exists_cons_of_ne_nil hdigits.1
          have hd : d.isDigit := hdigits.2 d (List.mem_cons_self ..)
          rw [List.nil_append, List.cons_append, signed_length_of_digit hd]
          rw [List.cons_append] at hle
          omega
        · have hle := le_digits_after 2 hdigits (List.prefix_append digits after)
          simp only [List.cons_append, List.nil_append, signedLength, List.length_cons]
          omega
        · have hle := le_digits_after 2 hdigits (List.prefix_append digits after)
          simp only [List.cons_append, List.nil_append, signedLength, List.length_cons]
          omega
      simp only [List.mem_cons, List.not_mem_nil, or_false] at hmark
      rcases hmark with rfl | rfl
      · simpa only [List.cons_append, exponentLength, List.length_cons] using hsigned
      · simpa only [List.cons_append, exponentLength, List.length_cons] using hsigned

/-- The mark of an exponent is no digit. -/
theorem head_exponent {exponent : List Char} (h : IsExponent exponent) {c : Char}
    (hc : exponent.head? = some c) : c ∈ ['e', 'E'] := by
  cases h with
  | none => cases hc
  | some hmark _ _ => exact Option.some.inj hc ▸ hmark

/-- A text that starts like an exponent has no fraction at its front. -/
theorem fraction_length_of_mark {c : Char} {text : List Char} (hc : c ∈ ['e', 'E']) :
    fractionLength (c :: text) = 0 := by
  simp only [List.mem_cons, List.not_mem_nil, or_false] at hc
  rcases hc with rfl | rfl <;> rfl

/-- The length of a fraction is that of its point and its digits. -/
theorem fraction_length_of_point {text : List Char} (h : runLength Char.isDigit text ≠ 0) :
    fractionLength ('.' :: text) = runLength Char.isDigit text + 1 := by
  obtain ⟨digits, hdigits⟩ := Nat.exists_eq_succ_of_ne_zero h
  simp only [fractionLength, hdigits]

/-- A fraction and an exponent are at most as long as the ones that are found. -/
theorem le_fraction_length {fraction exponent text : List Char} (hfraction : IsFraction fraction)
    (hexponent : IsExponent exponent) (h : fraction ++ exponent <+: text) :
    fraction.length + exponent.length ≤
      fractionLength text + exponentLength (text.drop (fractionLength text)) := by
  cases hfraction with
  | none =>
      cases exponent with
      | nil => exact Nat.zero_le _
      | cons c exponent =>
          obtain ⟨after, rfl⟩ := h
          have hmark := head_exponent hexponent rfl
          have hle := le_exponent_length hexponent (List.prefix_append _ after)
          rw [List.nil_append, List.cons_append, fraction_length_of_mark hmark, List.drop_zero,
            ← List.cons_append]
          simpa only [List.length_nil] using Nat.add_le_add_left hle 0
  | @some digits hdigits =>
      obtain ⟨after, rfl⟩ := h
      have hmark : ∀ c, exponent.head? = some c → c.isDigit = false := by
        intro c hc
        have hmem := head_exponent hexponent hc
        simp only [List.mem_cons, List.not_mem_nil, or_false] at hmem
        rcases hmem with rfl | rfl <;> rfl
      have hsplit := run_split hdigits.2 hmark (List.prefix_append (digits ++ exponent) after)
      have hpos := List.length_pos_iff.2 hdigits.1
      simp only [List.cons_append, List.length_cons]
      rcases hsplit with ⟨rfl, hle⟩ | ⟨hlength, hfront⟩
      · rw [fraction_length_of_point (by omega), List.length_nil]
        omega
      · have hle := le_exponent_length hexponent hfront
        rw [fraction_length_of_point (by omega), List.drop_succ_cons]
        omega

/-- A number is at most as long as the one that is found. -/
theorem le_number_length {whole fraction exponent text : List Char}
    (hwhole : ∀ c ∈ whole, c.isDigit) (hfraction : IsFraction fraction)
    (hexponent : IsExponent exponent) (h : whole ++ (fraction ++ exponent) <+: text) :
    whole.length + (fraction.length + exponent.length) ≤ numberLength text := by
  have hhead : ∀ c, (fraction ++ exponent).head? = some c → c.isDigit = false := by
    intro c hc
    cases hfraction with
    | some _ => exact Option.some.inj hc ▸ rfl
    | none =>
        have hmem := head_exponent hexponent hc
        simp only [List.mem_cons, List.not_mem_nil, or_false] at hmem
        rcases hmem with rfl | rfl <;> rfl
  simp only [numberLength]
  rcases run_split hwhole hhead h with ⟨hnil, hle⟩ | ⟨hlength, hfront⟩
  · obtain ⟨rfl, rfl⟩ := List.append_eq_nil_iff.1 hnil
    simp only [List.length_nil]
    omega
  · have hle := le_fraction_length hfraction hexponent hfront
    rw [List.drop_drop] at hle
    omega

/-- The digits at the front of a text. -/
theorem is_digits_run (text : List Char) (h : runLength Char.isDigit text ≠ 0) :
    IsDigits (text.take (runLength Char.isDigit text)) := by
  refine ⟨fun hnil => ?_, fun c hc => mem_run hc⟩
  rcases List.take_eq_nil_iff.1 hnil with hzero | rfl
  · exact h hzero
  · exact h rfl

/-- The fraction at the front of a text is one. -/
theorem take_fraction_length (text : List Char) : IsFraction (text.take (fractionLength text)) := by
  unfold fractionLength
  split
  next text =>
    split
    next => exact .none
    next digits heq =>
      have hdigits := is_digits_run text (by omega)
      rw [heq] at hdigits
      exact .some hdigits
  next => exact .none

/-- The digits that count with some characters before them are there. -/
theorem digits_after_cases (lead : Nat) (text : List Char) :
    digitsAfter lead text = 0 ∨ ∃ count, digitsAfter lead text = lead + count ∧
      IsDigits (text.take count) := by
  unfold digitsAfter
  split
  next => exact .inl rfl
  next digits heq =>
    have hdigits := is_digits_run text (by omega)
    rw [heq] at hdigits
    exact .inr ⟨digits + 1, rfl, hdigits⟩

/-- The exponent after a mark is one. -/
theorem take_signed_length {mark : Char} (hmark : mark ∈ ['e', 'E']) (text : List Char) :
    IsExponent ((mark :: text).take (signedLength text)) := by
  have hsigned (sign text : List Char) (hsign : sign ∈ [[], ['+'], ['-']]) :
      IsExponent ((mark :: (sign ++ text)).take (digitsAfter (sign.length + 1) text)) := by
    rcases digits_after_cases (sign.length + 1) text with hzero | ⟨count, hcount, hdigits⟩
    · rw [hzero]
      exact .none
    · rw [hcount, Nat.add_right_comm, List.take_succ_cons, List.take_length_add_append]
      exact .some hmark hsign hdigits
  unfold signedLength
  split
  next text => exact hsigned ['+'] text (by decide)
  next text => exact hsigned ['-'] text (by decide)
  next => exact hsigned [] text (by decide)

/-- The exponent at the front of a text is one. -/
theorem take_exponent_length (text : List Char) : IsExponent (text.take (exponentLength text)) := by
  unfold exponentLength
  split
  next text => exact take_signed_length (by decide) text
  next text => exact take_signed_length (by decide) text
  next => exact .none

/-- A digit and what is found after it are a number. -/
theorem matches_number {c : Char} (hc : c.isDigit) (text : List Char) :
    Matches (c :: text.take (numberLength text)) .number false := by
  have hwhole : IsDigits (c :: text.take (runLength Char.isDigit text)) :=
    ⟨List.cons_ne_nil _ _, List.forall_mem_cons.2 ⟨hc, fun d hd => mem_run hd⟩⟩
  simp only [numberLength, Nat.add_assoc]
  rw [List.take_add, List.take_add, ← List.cons_append, List.drop_drop]
  exact .number hwhole (take_fraction_length _) (take_exponent_length _)

/-! ## Brackets -/

/-- How far brackets reach into the text after the opening one, and whether they are closed. -/
inductive Bracketed : List Char → Nat → Bool → Prop where
  | closed {inside rest : List Char} : IsInside inside →
      Bracketed (inside ++ ']' :: rest) (inside.length + 1) true
  | escape {inside rest : List Char} : IsInside inside → rest.head? ≠ some ']' →
      Bracketed (inside ++ '\\' :: rest) (inside.length + 1) false
  | rest {inside : List Char} : IsInside inside → Bracketed inside inside.length false

/-- Brackets reach further by what stands before them inside. -/
theorem Bracketed.cons {text : List Char} {count : Nat} {closed : Bool}
    (h : Bracketed text count closed) (more : List Char)
    (hmore : ∀ inside, IsInside inside → IsInside (more ++ inside)) :
    Bracketed (more ++ text) (more.length + count) closed := by
  cases h with
  | closed hinside =>
      rw [← List.append_assoc, ← Nat.add_assoc, ← List.length_append]
      exact .closed (hmore _ hinside)
  | escape hinside hrest =>
      rw [← List.append_assoc, ← Nat.add_assoc, ← List.length_append]
      exact .escape (hmore _ hinside) hrest
  | rest hinside =>
      rw [← List.length_append]
      exact .rest (hmore _ hinside)

/-- The brackets at the front of a text are scanned as far as they reach. -/
theorem bracketed_length (passed : Nat) (text : List Char) :
    ∃ count closed, bracketedLength passed text = (passed + count, closed) ∧
      Bracketed text count closed := by
  fun_induction bracketedLength passed text with
  | case1 passed => exact ⟨0, false, rfl, .rest .nil⟩
  | case2 passed rest => exact ⟨1, true, rfl, .closed .nil⟩
  | case3 passed text ih =>
      obtain ⟨count, closed, hlength, hscanned⟩ := ih
      refine ⟨2 + count, closed, ?_, hscanned.cons ['\\', ']'] fun _ => .escaped⟩
      rw [hlength, Nat.add_assoc]
  | case4 passed rest hrest =>
      refine ⟨1, false, rfl, .escape .nil fun hhead => ?_⟩
      obtain ⟨text, rfl⟩ := List.head?_eq_some_iff.1 hhead
      exact hrest text rfl
  | case5 passed c text hbracket hescaped hbackslash ih =>
      obtain ⟨count, closed, hlength, hscanned⟩ := ih
      refine ⟨1 + count, closed, ?_,
        hscanned.cons [c] fun _ => .plain (fun heq => ?_) fun heq => ?_⟩
      · rw [hlength, Nat.add_assoc]
      · exact hbackslash heq
      · exact hbracket heq

/-- The scan passes over all that may stand between brackets. -/
theorem bracketed_append {inside : List Char} (h : IsInside inside) (passed : Nat)
    (rest : List Char) :
    bracketedLength passed (inside ++ rest) = bracketedLength (passed + inside.length) rest := by
  induction h generalizing passed with
  | nil => rfl
  | escaped _ ih =>
      rw [List.cons_append, List.cons_append, bracketedLength, ih, List.length_cons,
        List.length_cons]
      congr 1
      omega
  | plain hbackslash hbracket _ ih =>
      rw [List.cons_append, bracketedLength, ih, List.length_cons]
      · congr 1
        omega
      · exact hbracket
      · exact fun _ heq _ => hbackslash heq
      · exact hbackslash

/-- Brackets with a closing one after their inside are scanned up to it. -/
theorem bracketed_of_inside {inside : List Char} (h : IsInside inside) (passed : Nat)
    (rest : List Char) :
    bracketedLength passed (inside ++ ']' :: rest) = (passed + inside.length + 1, true) := by
  rw [bracketed_append h, bracketedLength]

/-- Brackets that are closed and hold a name are a quoted identifier. -/
theorem scan_bracketed_closed {text : List Char} {count : Nat}
    (h : bracketedLength 0 text = (count, true)) (hcount : 1 < count) :
    scanBracketed text = { plain .identifier count with quoted := true } := by
  unfold scanBracketed
  rw [h]
  exact if_neg (Nat.not_le.2 hcount)

/-! ## The first character -/

/-- The code points of the digits. -/
theorem code_of_digit {c : Char} : c.isDigit ↔ 48 ≤ c.toNat ∧ c.toNat ≤ 57 := by
  simp [Char.isDigit, UInt32.le_iff_toNat_le]

/-- The code points of the characters that start names. -/
theorem code_of_name_start {c : Char} (h : isNameStart c) :
    c.toNat = 36 ∨ c.toNat = 95 ∨ (65 ≤ c.toNat ∧ c.toNat ≤ 90) ∨
      (97 ≤ c.toNat ∧ c.toNat ≤ 122) := by
  have halpha : c.isAlpha = (decide (65 ≤ c.val ∧ c.val ≤ 90) ||
      decide (97 ≤ c.val) && decide (c.val ≤ 122)) := rfl
  simp only [isNameStart, halpha, Bool.or_eq_true, Bool.and_eq_true, decide_eq_true_eq, beq_iff_eq,
    UInt32.le_iff_toNat_le] at h
  rcases h with ((h | h) | rfl) | rfl
  · exact .inr (.inr (.inl h))
  · exact .inr (.inr (.inr h))
  · exact .inl rfl
  · exact .inr (.inl rfl)

/-- A character is not blank if its code point is none of those of blank characters. -/
theorem blank_of_code {c : Char} (h : 33 ≤ c.toNat ∧ c.toNat < 128) : Text.isBlank c = false := by
  simp only [Text.isBlank, Bool.or_eq_false_iff, Bool.and_eq_false_iff, decide_eq_false_iff_not,
    beq_eq_false_iff_ne]
  omega

/-- A digit is not blank. -/
theorem blank_of_digit {c : Char} (h : c.isDigit) : Text.isBlank c = false := by
  have hcode := code_of_digit.1 h
  exact blank_of_code (by omega)

/-- A character that starts a name is neither blank nor a digit. -/
theorem blank_of_name_start {c : Char} (h : isNameStart c) :
    Text.isBlank c = false ∧ c.isDigit = false := by
  have hcode := code_of_name_start h
  refine ⟨blank_of_code (by omega), Bool.eq_false_iff.2 fun hdigit => ?_⟩
  have hdigit := code_of_digit.1 hdigit
  omega

/-- A digit starts a number. -/
theorem scan_digit {c : Char} (h : c.isDigit) (text : List Char) :
    scan c text = plain .number (numberLength text) := by
  unfold scan
  rw [if_neg (by rw [blank_of_digit h]; decide), if_pos h]

/-- A character that starts a name starts a word. -/
theorem scan_name_start {c : Char} (h : isNameStart c) (text : List Char) :
    scan c text = scanWord c text := by
  obtain ⟨hblank, hdigit⟩ := blank_of_name_start h
  unfold scan
  rw [if_neg (by rw [hblank]; decide), if_neg (by rw [hdigit]; decide), if_pos h]

/-- A keyword is written like a name. -/
theorem keyword_cons {text : List Char} {kind : Kind} (h : (text, kind) ∈ keywords) :
    ∃ c rest, text = c :: rest ∧ isNameStart c ∧ ∀ d ∈ rest, isNamePart d := by
  simp only [keywords, List.mem_cons, List.not_mem_nil, or_false, Prod.mk.injEq] at h
  rcases h with ⟨rfl, -⟩ | ⟨rfl, -⟩ | ⟨rfl, -⟩
  · exact ⟨'l', ['e', 't'], rfl, rfl, List.all_eq_true.1 rfl⟩
  · exact ⟨'f', ['n'], rfl, rfl, List.all_eq_true.1 rfl⟩
  · exact ⟨'i', ['n'], rfl, rfl, List.all_eq_true.1 rfl⟩

/-- A word is at most as long as the one that is found. -/
theorem word_le_scan {c d : Char} {word text : List Char} (hd : isNameStart d)
    (hword : ∀ e ∈ word, isNamePart e) (h : d :: word <+: c :: text) :
    (d :: word).length ≤ (scan c text).tail + 1 := by
  obtain ⟨rfl, htail⟩ := List.cons_prefix_cons.1 h
  rw [scan_name_start hd, List.length_cons]
  exact Nat.succ_le_succ (le_run hword htail)

/-- A lexeme with only one text is at most as long as what is found. -/
theorem fixed_le_scan {c : Char} {fixed text : List Char} {kind : Kind}
    (hfixed : (fixed, kind) ∈ fixedTexts) (h : fixed <+: c :: text) :
    fixed.length ≤ (scan c text).tail + 1 := by
  have hlong : ∀ entry ∈ fixedTexts, entry.1.length ≤ 1 ∨
      entry.1 ∈ [['=', '>'], ['^', '^'], ['.', '.', '.']] := by decide
  rcases hlong _ hfixed with hshort | hlong
  · exact Nat.le_trans hshort (Nat.le_add_left 1 _)
  · obtain ⟨after, hafter⟩ := h
    simp only [List.mem_cons, List.not_mem_nil, or_false] at hlong
    rcases hlong with rfl | rfl | rfl <;> cases hafter <;> exact Nat.le_refl _

/-- Every lexeme at the front of a text is at most as long as what is found there. -/
theorem Matches.le_scan {c : Char} {lexeme text : List Char} {kind : Kind} {quoted : Bool}
    (hlexeme : Matches lexeme kind quoted) (h : lexeme <+: c :: text) :
    lexeme.length ≤ (scan c text).tail + 1 := by
  cases hlexeme with
  | blanks hne hblank =>
      obtain ⟨d, blanks, rfl⟩ := List.exists_cons_of_ne_nil hne
      obtain ⟨rfl, htail⟩ := List.cons_prefix_cons.1 h
      obtain ⟨hd, hblanks⟩ := List.forall_mem_cons.1 fun e he => mem_blanks_iff.1 (hblank e he)
      unfold scan
      rw [if_pos hd, List.length_cons]
      exact Nat.succ_le_succ (le_run hblanks htail)
  | @number whole fraction exponent hwhole hfraction hexponent =>
      obtain ⟨d, digits, rfl⟩ := List.exists_cons_of_ne_nil hwhole.1
      obtain ⟨rfl, htail⟩ := List.cons_prefix_cons.1 h
      obtain ⟨hd, hdigits⟩ := List.forall_mem_cons.1 hwhole.2
      have hle := le_number_length hdigits hfraction hexponent htail
      rw [scan_digit hd, List.length_append, List.length_append, List.length_cons]
      show _ ≤ numberLength text + 1
      omega
  | fixed hfixed => exact fixed_le_scan hfixed h
  | keyword hkeyword =>
      obtain ⟨d, word, rfl, hd, hword⟩ := keyword_cons hkeyword
      exact word_le_scan hd hword h
  | name hd hword _ =>
      exact word_le_scan (starts_name_iff.1 hd) (fun e he => continues_name_iff.1 (hword e he)) h
  | @quoted inside hne hinside =>
      obtain ⟨after, hafter⟩ := h
      rw [List.cons_append, List.append_assoc, List.singleton_append] at hafter
      obtain ⟨rfl, rfl⟩ := List.cons.inj hafter
      have hpos := List.length_pos_iff.2 hne
      show _ ≤ (scanBracketed _).tail + 1
      rw [scan_bracketed_closed (bracketed_of_inside hinside 0 after) (by omega), List.length_cons,
        List.length_append]
      show _ ≤ 0 + inside.length + 1 + 1
      simp

/-! ## What is found -/

/-- What is found at the front of a text is a lexeme, or it is invalid and no lexeme starts
there. -/
def Found (c : Char) (text : List Char) (found : Lexeme) : Prop :=
  Matches (c :: text.take found.tail) found.kind found.quoted ∨
    (found.kind = .invalid ∧ Stray (c :: text) (c :: text.take found.tail) ∧
      ∀ lexeme kind quoted, Matches lexeme kind quoted → ¬ lexeme <+: c :: text)

/-- The keywords are those of the list. -/
theorem keyword_mem {word : List Char} {kind : Kind}
    (h : Kind.keyword? (String.ofList word) = some kind) : (word, kind) ∈ keywords := by
  have hword {text : String} (heq : String.ofList word = text) : word = text.toList := by
    rw [← heq, String.toList_ofList]
  unfold Kind.keyword? at h
  split at h
  next heq =>
    obtain rfl := hword heq
    obtain rfl := Option.some.inj h
    decide
  next heq =>
    obtain rfl := hword heq
    obtain rfl := Option.some.inj h
    decide
  next heq =>
    obtain rfl := hword heq
    obtain rfl := Option.some.inj h
    decide
  next => cases h

/-- No keyword is missing from the list. -/
theorem keyword_of_mem {word : List Char} {kind : Kind} (h : (word, kind) ∈ keywords) :
    Kind.keyword? (String.ofList word) = some kind := by
  simp only [keywords, List.mem_cons, List.not_mem_nil, or_false, Prod.mk.injEq] at h
  rcases h with ⟨rfl, rfl⟩ | ⟨rfl, rfl⟩ | ⟨rfl, rfl⟩ <;> rfl

/-- A word is a keyword or a name. -/
theorem found_word {c : Char} (h : isNameStart c) (text : List Char) :
    Found c text (scanWord c text) := by
  left
  cases hkeyword : Kind.keyword? (String.ofList (c :: text.take (runLength isNamePart text))) with
  | some kind =>
      simp only [scanWord, plain, hkeyword]
      exact .keyword (keyword_mem hkeyword)
  | none =>
      simp only [scanWord, plain, hkeyword]
      refine .name (starts_name_iff.2 h) (fun d hd => continues_name_iff.2 (mem_run hd))
        fun hmem => ?_
      obtain ⟨⟨word, kind⟩, hentry, rfl⟩ := List.mem_map.1 hmem
      cases hkeyword.symm.trans (keyword_of_mem hentry)

/-- The first character of a lexeme says what it is. -/
theorem Matches.head_cases {c : Char} {lexeme text : List Char} {kind : Kind} {quoted : Bool}
    (hlexeme : Matches lexeme kind quoted) (h : lexeme <+: c :: text) :
    Text.isBlank c ∨ c.isDigit ∨ isNameStart c ∨ (lexeme, kind) ∈ fixedTexts ∨
      (c = '[' ∧ ∃ inside rest, inside ≠ [] ∧ IsInside inside ∧ text = inside ++ ']' :: rest) := by
  cases hlexeme with
  | blanks hne hblank =>
      obtain ⟨d, blanks, rfl⟩ := List.exists_cons_of_ne_nil hne
      obtain ⟨rfl, -⟩ := List.cons_prefix_cons.1 h
      exact .inl (mem_blanks_iff.1 (hblank d (List.mem_cons_self ..)))
  | number hwhole _ _ =>
      obtain ⟨d, digits, rfl⟩ := List.exists_cons_of_ne_nil hwhole.1
      obtain ⟨rfl, -⟩ := List.cons_prefix_cons.1 h
      exact .inr (.inl (hwhole.2 d (List.mem_cons_self ..)))
  | fixed hfixed => exact .inr (.inr (.inr (.inl hfixed)))
  | keyword hkeyword =>
      obtain ⟨d, word, rfl, hd, -⟩ := keyword_cons hkeyword
      obtain ⟨rfl, -⟩ := List.cons_prefix_cons.1 h
      exact .inr (.inr (.inl hd))
  | name hd _ _ =>
      obtain ⟨rfl, -⟩ := List.cons_prefix_cons.1 h
      exact .inr (.inr (.inl (starts_name_iff.1 hd)))
  | quoted hne hinside =>
      obtain ⟨after, hafter⟩ := h
      rw [List.cons_append, List.append_assoc, List.singleton_append] at hafter
      obtain ⟨rfl, rfl⟩ := List.cons.inj hafter
      exact .inr (.inr (.inr (.inr ⟨rfl, _, after, hne, hinside, rfl⟩)))

/-- No lexeme starts at a bracket that is not closed or closed at once. -/
theorem no_match_of_bracketed {text : List Char} {count : Nat} {closed : Bool}
    (h : bracketedLength 0 text = (count, closed)) (hinvalid : closed = true → count ≤ 1)
    {lexeme : List Char} {kind : Kind} {quoted : Bool} (hlexeme : Matches lexeme kind quoted) :
    ¬ lexeme <+: '[' :: text := by
  intro hfront
  rcases hlexeme.head_cases hfront with
    hc | hc | hc | hfixed | ⟨-, inside, rest, hne, hinside, rfl⟩
  · exact absurd hc (by decide)
  · exact absurd hc (by decide)
  · exact absurd hc (by decide)
  · have hheads : ∀ entry ∈ fixedTexts, entry.1 ≠ [] ∧ entry.1.head? ≠ some '[' := by decide
    obtain ⟨hne, hhead⟩ := hheads _ hfixed
    obtain ⟨d, tail, rfl⟩ := List.exists_cons_of_ne_nil hne
    obtain ⟨rfl, -⟩ := List.cons_prefix_cons.1 hfront
    exact hhead rfl
  · rw [bracketed_of_inside hinside] at h
    obtain ⟨rfl, rfl⟩ := Prod.mk.inj h
    have hpos := List.length_pos_iff.2 hne
    have hle := hinvalid rfl
    omega

/-- Brackets are a quoted identifier, or they are invalid. -/
theorem found_bracketed (text : List Char) : Found '[' text (scanBracketed text) := by
  obtain ⟨count, closed, hlength, hbracketed⟩ := bracketed_length 0 text
  rw [Nat.zero_add] at hlength
  cases hbracketed with
  | @closed inside rest hinside =>
      cases inside with
      | nil =>
          right
          exact ⟨rfl, .empty, fun _ _ _ => no_match_of_bracketed hlength fun _ => Nat.le_refl 1⟩
      | cons c inside =>
          left
          rw [scan_bracketed_closed hlength (by rw [List.length_cons]; omega)]
          show Matches ('[' :: List.take ((c :: inside).length + 1) _) _ _
          rw [List.take_length_add_append]
          exact .quoted (List.cons_ne_nil _ _) hinside
  | @escape inside rest hinside hrest =>
      right
      refine ⟨?_, ?_, fun _ _ _ => no_match_of_bracketed hlength nofun⟩
      · simp only [scanBracketed, hlength, faulty]
      · simp only [scanBracketed, hlength, faulty]
        rw [List.take_length_add_append]
        exact .escape hinside hrest
  | rest hinside =>
      right
      refine ⟨?_, ?_, fun _ _ _ => no_match_of_bracketed hlength nofun⟩
      · simp only [scanBracketed, hlength, faulty]
      · simp only [scanBracketed, hlength, faulty]
        rw [List.take_length]
        exact .rest hinside

/-- No lexeme starts at a character that starts none, or at one that the lexemes which start with it
do not continue as the text does. -/
theorem found_stray {c : Char} {text : List Char} {cause : Cause} (hblank : Text.isBlank c = false)
    (hdigit : c.isDigit = false) (hname : isNameStart c = false) (hbracket : c ≠ '[')
    (hfixed : ∀ entry ∈ fixedTexts, ¬ entry.1 <+: c :: text) :
    Found c text (faulty cause 0) := by
  refine .inr ⟨rfl, .character hbracket, fun lexeme kind quoted hlexeme hfront => ?_⟩
  rcases hlexeme.head_cases hfront with hc | hc | hc | hentry | ⟨hc, -⟩
  · exact absurd hc (by rw [hblank]; decide)
  · exact absurd hc (by rw [hdigit]; decide)
  · exact absurd hc (by rw [hname]; decide)
  · exact hfixed _ hentry hfront
  · exact hbracket hc

/-- Where a lexeme with only one text starts, the token is valid. -/
theorem kind_of_fixed {c : Char} {fixed text : List Char} {kind : Kind}
    (hfixed : (fixed, kind) ∈ fixedTexts) (h : fixed <+: c :: text) :
    (scanSymbol c text).kind ≠ .invalid := by
  obtain ⟨after, hafter⟩ := h
  simp only [fixedTexts, List.mem_cons, List.not_mem_nil, or_false, Prod.mk.injEq] at hfixed
  rcases hfixed with ⟨rfl, -⟩ | ⟨rfl, -⟩ | ⟨rfl, -⟩ | ⟨rfl, -⟩ | ⟨rfl, -⟩ | ⟨rfl, -⟩ | ⟨rfl, -⟩ |
    ⟨rfl, -⟩ | ⟨rfl, -⟩ | ⟨rfl, -⟩ | ⟨rfl, -⟩ | ⟨rfl, -⟩ | ⟨rfl, -⟩ <;> cases hafter
  · -- one character more decides between the two lexemes
    cases after with
    | nil => simp [scanSymbol, plain]
    | cons d after =>
        by_cases hd : d = '>'
        · subst hd
          simp [scanSymbol, plain]
        · simp [scanSymbol, hd, plain]
  all_goals simp [scanSymbol, plain]

/-- A character of punctuation is found with the characters that belong to it. -/
theorem found_symbol {c : Char} {text : List Char} (hblank : Text.isBlank c = false)
    (hdigit : c.isDigit = false) (hname : isNameStart c = false) :
    Found c text (scanSymbol c text) := by
  have hfixed : (scanSymbol c text).kind = .invalid →
      ∀ entry ∈ fixedTexts, ¬ entry.1 <+: c :: text :=
    fun hinvalid _ hentry hfront => kind_of_fixed hentry hfront hinvalid
  revert hfixed
  unfold scanSymbol
  split <;> intro hfixed
  case h_11 => exact found_stray hblank hdigit hname (by decide) (hfixed rfl)
  case h_15 => exact found_bracketed _
  case h_16 hbracket _ _ _ => exact found_stray hblank hdigit hname hbracket (hfixed rfl)
  all_goals exact .inl (.fixed (by simp [fixedTexts, plain]))

/-- What is found at the front of a text is a lexeme, unless none starts there. -/
theorem found_scan (c : Char) (text : List Char) : Found c text (scan c text) := by
  unfold scan
  split
  next hblank =>
    exact .inl (.blanks (List.cons_ne_nil _ _)
      (List.forall_mem_cons.2 ⟨mem_blanks_iff.2 hblank, fun d hd => mem_blanks_iff.2 (mem_run hd)⟩))
  next hblank =>
    split
    next hdigit => exact .inl (matches_number hdigit text)
    next hdigit =>
      split
      next hname => exact found_word hname text
      next hname =>
        exact found_symbol (Bool.eq_false_iff.2 hblank) (Bool.eq_false_iff.2 hdigit)
          (Bool.eq_false_iff.2 hname)

/-- A text has only one kind as a lexeme: the one that is found in it. -/
theorem Matches.scan_kind {c : Char} {text : List Char} {kind : Kind} {quoted : Bool}
    (h : Matches (c :: text) kind quoted) :
    (scan c text).kind = kind ∧ (scan c text).quoted = quoted := by
  generalize hlexeme : c :: text = lexeme at h
  cases h with
  | blanks _ hblank =>
      obtain ⟨hc, -⟩ := List.forall_mem_cons.1 (hlexeme ▸ hblank)
      unfold scan
      rw [if_pos (mem_blanks_iff.1 hc)]
      exact ⟨rfl, rfl⟩
  | number hwhole _ _ =>
      obtain ⟨d, digits, rfl⟩ := List.exists_cons_of_ne_nil hwhole.1
      obtain ⟨rfl, -⟩ := List.cons.inj hlexeme
      rw [scan_digit (hwhole.2 c (List.mem_cons_self ..))]
      exact ⟨rfl, rfl⟩
  | fixed hfixed =>
      simp only [fixedTexts, List.mem_cons, List.not_mem_nil, or_false, Prod.mk.injEq] at hfixed
      rcases hfixed with ⟨rfl, rfl⟩ | ⟨rfl, rfl⟩ | ⟨rfl, rfl⟩ | ⟨rfl, rfl⟩ | ⟨rfl, rfl⟩ |
        ⟨rfl, rfl⟩ | ⟨rfl, rfl⟩ | ⟨rfl, rfl⟩ | ⟨rfl, rfl⟩ | ⟨rfl, rfl⟩ | ⟨rfl, rfl⟩ | ⟨rfl, rfl⟩ |
        ⟨rfl, rfl⟩ <;> cases hlexeme <;> decide
  | keyword hkeyword =>
      simp only [keywords, List.mem_cons, List.not_mem_nil, or_false, Prod.mk.injEq] at hkeyword
      rcases hkeyword with ⟨rfl, rfl⟩ | ⟨rfl, rfl⟩ | ⟨rfl, rfl⟩ <;> cases hlexeme <;> decide
  | name hc hword hkeyword =>
      cases hlexeme
      have hparts : ∀ d ∈ text, isNamePart d := fun d hd => continues_name_iff.1 (hword d hd)
      have hrun : text.take (runLength isNamePart text) = text :=
        List.take_of_length_le (le_run hparts (List.prefix_refl text))
      have hnone : Kind.keyword? (String.ofList (c :: text)) = none := by
        refine Option.eq_none_iff_forall_ne_some.2 fun kind hkind => hkeyword ?_
        exact List.mem_map.2 ⟨_, keyword_mem hkind, rfl⟩
      rw [scan_name_start (starts_name_iff.1 hc), scanWord]
      simp only [hrun, hnone]
      exact ⟨rfl, rfl⟩
  | @quoted inside hne hinside =>
      cases hlexeme
      have hpos := List.length_pos_iff.2 hne
      have hscan : scan '[' (inside ++ [']']) = scanBracketed (inside ++ [']']) := rfl
      rw [hscan, scan_bracketed_closed (bracketed_of_inside hinside 0 []) (by omega)]
      exact ⟨rfl, rfl⟩

/-- No lexeme is invalid. -/
theorem Matches.kind_ne {lexeme : List Char} {kind : Kind} {quoted : Bool}
    (h : Matches lexeme kind quoted) : kind ≠ .invalid := by
  have hfixed : ∀ entry ∈ fixedTexts, entry.2 ≠ .invalid := by decide
  have hkeyword : ∀ entry ∈ keywords, entry.2 ≠ .invalid := by decide
  cases h with
  | fixed hmem => exact hfixed _ hmem
  | keyword hmem => exact hkeyword _ hmem
  | blanks | number | name | quoted => decide

/-- Some lexeme starts at the front of a text. -/
def Starts (text : List Char) : Prop :=
  ∃ lexeme kind quoted, lexeme <+: text ∧ Matches lexeme kind quoted

end Lexeme

namespace Token

/-- The token that covers the front of a text is the longest match there. -/
structure LongestMatch (text covered : List Char) (token : Token) : Prop where
  covered_prefix : covered <+: text
  /-- If a lexeme starts there, the token is valid, and it is a lexeme of its kind. -/
  lexeme : Lexeme.Starts text →
    token.kind ≠ .invalid ∧ Lexeme.Matches covered token.kind token.quoted
  /-- The token has no other kind as a lexeme. -/
  kind : ∀ kind quoted, Lexeme.Matches covered kind quoted →
    kind = token.kind ∧ quoted = token.quoted
  /-- No lexeme that starts there is longer. -/
  longest : ∀ lexeme kind quoted, lexeme <+: text → Lexeme.Matches lexeme kind quoted →
    lexeme.length ≤ covered.length
  /-- If no lexeme starts there, the token is invalid, and covers a character or broken brackets. -/
  stray : ¬ Lexeme.Starts text → token.kind = .invalid ∧ Lexeme.Stray text covered

/-- What is found at the front of a text is the longest match there. -/
theorem scan_longest_match (c : Char) (text : List Char) (start : Position) :
    LongestMatch (c :: text) (c :: text.take (Lexeme.scan c text).tail)
      ((Lexeme.scan c text).toToken (c :: text.take (Lexeme.scan c text).tail) start) := by
  have hfound := Lexeme.found_scan c text
  have hfront : c :: text.take (Lexeme.scan c text).tail <+: c :: text :=
    List.cons_prefix_cons.2 ⟨rfl, List.take_prefix ..⟩
  refine ⟨hfront, ?_, ?_, ?_, ?_⟩
  · rintro ⟨lexeme, kind, quoted, hlexeme, hmatches⟩
    rcases hfound with hvalid | ⟨-, -, hnone⟩
    · exact ⟨hvalid.kind_ne, hvalid⟩
    · exact absurd hlexeme (hnone lexeme kind quoted hmatches)
  · intro kind quoted hmatches
    rcases hfound with hvalid | ⟨-, -, hnone⟩
    · obtain ⟨rfl, rfl⟩ := hmatches.scan_kind
      exact hvalid.scan_kind
    · exact absurd hfront (hnone _ kind quoted hmatches)
  · intro lexeme kind quoted hlexeme hmatches
    have hle := hmatches.le_scan hlexeme
    have hlength := hlexeme.length_le
    rw [List.length_cons] at hlength
    rw [List.length_cons, List.length_take]
    omega
  · intro hstarts
    rcases hfound with hvalid | ⟨hinvalid, hstray, -⟩
    · exact absurd ⟨_, _, _, hfront, hvalid⟩ hstarts
    · exact ⟨hinvalid, hstray⟩

/-- Every token of a source text but the end of input is the longest match at the place where it
starts. -/
theorem read_longest_match (source file : String) :
    ∃ front, (read source file).toList = front ++ [.endOfInput ⟨file, source.utf8ByteSize⟩] ∧
      ∀ token ∈ front, ∃ before text covered, source.toList = before ++ text ∧
        Text.byteLength before = token.span.start.offset ∧
        token.span.slice? source = some (String.ofList covered) ∧
        LongestMatch text covered token := by
  obtain ⟨front, htokens, hplaced⟩ := read_placed source file
  refine ⟨front, htokens, fun token htoken => ?_⟩
  obtain ⟨before, c, rest, h⟩ := hplaced token htoken
  refine ⟨before, c :: rest, _, h.text_eq, ?_, h.slice_eq, ?_⟩
  · rw [h.token_eq]
    rfl
  · rw [h.token_eq]
    exact scan_longest_match c rest _

end Token

end LetScript

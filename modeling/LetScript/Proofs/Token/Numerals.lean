import LetScript.Proofs.Number.RoundTrip
import LetScript.Proofs.Token.LongestMatch

/-!
# Numbers of a source are numerals

The lexer and the reader of numerals have grammars of their own. What the first takes for a number
is a numeral of the second (`Numeral.read_number`), so every number of a source is read, and it is
read without a sign (`Token.read_number`).
-/

namespace LetScript

namespace Numeral

open Lexeme

/-- Digits are the digits of an exponent. -/
theorem exponent_digits_of_digits {digits : List Char} (h : IsDigits digits) :
    exponentDigits? digits = some (exponentValue digits) := by
  have hall : digits.all Char.isDigit := List.all_eq_true.2 h.2
  simp [exponentDigits?, h.1, hall]

/-- Digits after the mark of an exponent have no sign before them. -/
theorem signed_exponent_of_digit {c : Char} {text : List Char} (hc : c.isDigit) :
    signedExponent? (c :: text) = (exponentDigits? (c :: text)).map Int.ofNat := by
  unfold signedExponent?
  split
  next heq =>
    obtain ⟨rfl, -⟩ := List.cons.inj heq
    exact absurd hc (by decide)
  next heq =>
    obtain ⟨rfl, -⟩ := List.cons.inj heq
    exact absurd hc (by decide)
  next => rfl

/-- The exponent of a lexeme is read. -/
theorem exponent_of_exponent {exponent : List Char} (h : IsExponent exponent) :
    ∃ power, exponent? exponent = some power := by
  cases h with
  | none => exact ⟨0, rfl⟩
  | @some mark sign digits hmark hsign hdigits =>
      have hsigned : ∃ power, signedExponent? (sign ++ digits) = some power := by
        simp only [List.mem_cons, List.not_mem_nil, or_false] at hsign
        rcases hsign with rfl | rfl | rfl
        · obtain ⟨c, more, rfl⟩ := List.exists_cons_of_ne_nil hdigits.1
          have hc : c.isDigit := hdigits.2 c (List.mem_cons_self ..)
          rw [List.nil_append, signed_exponent_of_digit hc, exponent_digits_of_digits hdigits]
          exact ⟨_, rfl⟩
        · simp only [List.cons_append, List.nil_append, signedExponent?,
            exponent_digits_of_digits hdigits]
          exact ⟨_, rfl⟩
        · simp only [List.cons_append, List.nil_append, signedExponent?,
            exponent_digits_of_digits hdigits]
          exact ⟨_, rfl⟩
      simp only [List.mem_cons, List.not_mem_nil, or_false] at hmark
      rcases hmark with rfl | rfl
      · exact hsigned
      · exact hsigned

/-- An exponent starts with neither a digit nor a point. -/
theorem head_exponent_ne {exponent : List Char} (h : IsExponent exponent) {c : Char}
    (hc : exponent.head? = some c) : c.isDigit = false ∧ c ≠ '.' := by
  have hmark := head_exponent h hc
  simp only [List.mem_cons, List.not_mem_nil, or_false] at hmark
  rcases hmark with rfl | rfl <;> decide

/-- The fraction of a lexeme is cut off before its exponent. -/
theorem split_fraction_of_fraction {fraction exponent : List Char} (hfraction : IsFraction fraction)
    (hexponent : IsExponent exponent) :
    ∃ digits, splitFraction (fraction ++ exponent) = (digits, exponent) := by
  have hhead := fun c hc => head_exponent_ne hexponent (c := c) hc
  cases hfraction with
  | none =>
      refine ⟨[], ?_⟩
      unfold splitFraction
      split
      next heq =>
        rw [List.nil_append] at heq
        exact absurd rfl (hhead '.' (by rw [heq]; rfl)).2
      next => rfl
  | some hdigits => exact ⟨_, span_digits hdigits.2 fun c hc => (hhead c hc).1⟩

/-- What the lexer takes for a number is written in decimal digits. -/
theorem decimal_of_number {whole fraction exponent : List Char} (hwhole : IsDigits whole)
    (hfraction : IsFraction fraction) (hexponent : IsExponent exponent) :
    ∃ value, decimal? (whole ++ (fraction ++ exponent)) = some value := by
  have hhead : ∀ c, (fraction ++ exponent).head? = some c → c.isDigit = false := by
    intro c hc
    cases hfraction with
    | none => exact (head_exponent_ne hexponent hc).1
    | some _ => exact Option.some.inj hc ▸ rfl
  obtain ⟨digits, hsplit⟩ := split_fraction_of_fraction hfraction hexponent
  obtain ⟨power, hpower⟩ := exponent_of_exponent hexponent
  have hne : (whole.isEmpty && digits.isEmpty) = false := by
    rw [List.isEmpty_eq_false_iff.2 hwhole.1, Bool.false_and]
  unfold decimal?
  rw [span_digits hwhole.2 hhead]
  simp only [hsplit, hpower, hne]
  exact ⟨_, rfl⟩

/-- What the lexer takes for a number is a numeral without a sign, and it is no name. -/
theorem read_number {text : String} {quoted : Bool} (h : Matches text.toList .number quoted) :
    ∃ value, read? text = some ⟨false, .decimal value⟩ := by
  generalize htext : text.toList = chars at h
  generalize hkind : Kind.number = kind at h
  have hfixed : ∀ entry ∈ fixedTexts, entry.2 ≠ .number := by decide
  have hkeyword : ∀ entry ∈ keywords, entry.2 ≠ .number := by decide
  cases h with
  | @number whole fraction exponent hwhole hfraction hexponent =>
      obtain ⟨value, hvalue⟩ := decimal_of_number hwhole hfraction hexponent
      obtain ⟨c, more, rfl⟩ := List.exists_cons_of_ne_nil hwhole.1
      have hc : c.isDigit := hwhole.2 c (List.mem_cons_self ..)
      rw [List.cons_append] at htext hvalue
      refine ⟨value, ?_⟩
      rw [read_of_digit htext hc, magnitude?, hvalue]
      rfl
  | fixed hmem => exact absurd hkind.symm (hfixed _ hmem)
  | keyword hmem => exact absurd hkind.symm (hkeyword _ hmem)
  | _ => cases hkind

end Numeral

/-- A number of a source is a numeral without a sign. -/
theorem Token.read_number {source file : String} {token : Token}
    (h : token ∈ (read source file).toList) (hkind : token.kind = .number) :
    ∃ value, Numeral.read? token.value = some ⟨false, .decimal value⟩ := by
  rcases mem_read h with ⟨before, c, rest, hplace⟩ | rfl
  · have hnumber : (Lexeme.scan c rest).kind = .number := by
      rw [hplace.token_eq] at hkind
      exact hkind
    have hname : ¬ (token.kind = .identifier ∧ token.quoted) := fun hquoted => by
      rw [hkind] at hquoted
      cases hquoted.1
    have hvalue : token.value = String.ofList (c :: rest.take (Lexeme.scan c rest).tail) :=
      Option.some.inj ((hplace.value_eq hname).symm.trans hplace.slice_eq)
    rcases Lexeme.found_scan c rest with hmatch | ⟨hinvalid, -⟩
    · rw [hnumber] at hmatch
      rw [hvalue]
      exact Numeral.read_number (by rwa [String.toList_ofList])
    · rw [hnumber] at hinvalid
      cases hinvalid
  · cases hkind

end LetScript

import LetScript.Proofs.Number.Shortest
import Mathlib.Data.List.TakeDrop

/-!
# The text of a number reads back

Writing a decimal number without an exponent keeps its value (`Binary64.positional_written`), so
every finite number is read back from its own text (`Binary64.read_to_text`).
-/

namespace LetScript

/-! ## Decimal digits -/

namespace Numeral

/-- The digits at the front of a text are cut off. -/
theorem span_digits {digits rest : List Char} (hdigits : ∀ c ∈ digits, c.isDigit)
    (hrest : ∀ c, rest.head? = some c → c.isDigit = false) :
    (digits ++ rest).span Char.isDigit = (digits, rest) := by
  rw [List.span_eq_takeWhile_dropWhile, List.takeWhile_append_of_pos hdigits,
    List.dropWhile_append_of_pos hdigits]
  cases rest with
  | nil => simp
  | cons c rest => simp [hrest c rfl]

/-- The text of a number without an exponent: its digits before the point, and those after it if
there are any. -/
def written (whole fraction : List Char) : List Char :=
  if fraction.isEmpty then whole else whole ++ '.' :: fraction

/-- A number without an exponent is read by its digits. -/
theorem decimal_written {whole fraction : List Char} (hne : whole ≠ [])
    (hwhole : ∀ c ∈ whole, c.isDigit) (hfraction : ∀ c ∈ fraction, c.isDigit) :
    decimal? (written whole fraction) =
      some ⟨digitsValue (whole ++ fraction), -(fraction.length : Int)⟩ := by
  have hspan {digits : List Char} (hdigits : ∀ c ∈ digits, c.isDigit) :
      digits.span Char.isDigit = (digits, []) := by
    have happend : (digits ++ []).span Char.isDigit = (digits, []) := span_digits hdigits nofun
    rwa [List.append_nil] at happend
  have hsplit : (written whole fraction).span Char.isDigit =
      (whole, if fraction.isEmpty then [] else '.' :: fraction) := by
    unfold written
    split
    next => exact hspan hwhole
    next => exact span_digits hwhole fun c hc => by obtain rfl := Option.some.inj hc; rfl
  unfold decimal?
  rw [hsplit]
  by_cases hempty : fraction.isEmpty
  · obtain rfl := List.isEmpty_iff.1 hempty
    simp [splitFraction, exponent?, hne]
  · have hfound : splitFraction ('.' :: fraction) = (fraction, []) := hspan hfraction
    simp [hempty, hfound, exponent?]

/-- The value of digits after others. -/
theorem digits_value_append (digits more : List Char) :
    digitsValue (digits ++ more) = 10 ^ more.length * digitsValue digits + digitsValue more := by
  have happend : Nat.ofDigitChars 10 (digits ++ more) 0 =
      10 ^ more.length * Nat.ofDigitChars 10 digits 0 + Nat.ofDigitChars 10 more 0 := by
    rw [Nat.ofDigitChars_append, Nat.ofDigitChars_eq_ofDigitChars_zero]
  exact happend

/-- The value of zeros. -/
theorem digits_value_zeros (count : Nat) : digitsValue (List.replicate count '0') = 0 :=
  Nat.ofDigitChars_replicate_zero

/-- The value of the digits of a number. -/
theorem digits_value_to_digits (n : Nat) : digitsValue (Nat.toDigits 10 n) = n :=
  Nat.ofDigitChars_ten_toDigits

/-- The digits before the point of a number: a single zero, or digits that do not start with one. -/
def IsWhole (whole : List Char) : Prop :=
  (∀ c ∈ whole, c.isDigit) ∧ (whole = ['0'] ∨ ∃ c rest, whole = c :: rest ∧ c ≠ '0')

/-- The digits of a positive number do not start with a zero. -/
theorem to_digits_head {n : Nat} (hpos : 0 < n) :
    ∃ c rest, Nat.toDigits 10 n = c :: rest ∧ c ≠ '0' := by
  induction n using Nat.strongRecOn with
  | ind n ih =>
      by_cases hn : n < 10
      · have hzero : ∀ d < 10, 0 < d → Nat.digitChar d ≠ '0' := by decide
        exact ⟨_, [], Nat.toDigits_of_lt_base hn, hzero n hn hpos⟩
      · rw [Nat.toDigits_of_base_le (by decide) (Nat.le_of_not_lt hn)]
        obtain ⟨c, rest, hdigits, hc⟩ := ih (n / 10) (by omega) (by omega)
        rw [hdigits]
        exact ⟨c, _, rfl, hc⟩

/-- The digits of a positive number with zeros after them stand before a point. -/
theorem is_whole_digits {n : Nat} (hpos : 0 < n) (count : Nat) :
    IsWhole (Nat.toDigits 10 n ++ List.replicate count '0') := by
  refine ⟨?_, .inr ?_⟩
  · intro c hc
    rcases List.mem_append.1 hc with hc | hc
    · exact Nat.isDigit_of_mem_toDigits (by decide) (by decide) hc
    · rw [List.eq_of_mem_replicate hc]
      rfl
  · obtain ⟨c, rest, hdigits, hc⟩ := to_digits_head hpos
    rw [hdigits]
    exact ⟨c, _, rfl, hc⟩

/-- There is a digit before the point. -/
theorem IsWhole.exists_cons {whole : List Char} (h : IsWhole whole) :
    ∃ c rest, whole = c :: rest ∧ c.isDigit := by
  rcases h.2 with rfl | ⟨c, rest, rfl, -⟩
  · exact ⟨'0', [], rfl, rfl⟩
  · exact ⟨c, rest, rfl, h.1 c (List.mem_cons_self ..)⟩

/-- The text of a number starts with its digits before the point. -/
theorem written_eq_cons (c : Char) (rest fraction : List Char) :
    ∃ more, written (c :: rest) fraction = c :: more := by
  unfold written
  split
  · exact ⟨rest, rfl⟩
  · exact ⟨_, rfl⟩

/-- A text that starts with a digit is read without a sign. -/
theorem read_of_digit {text : String} {c : Char} {rest : List Char}
    (htext : text.toList = c :: rest) (hc : c.isDigit) :
    read? text = (magnitude? (c :: rest)).map (⟨false, ·⟩) := by
  unfold read?
  rw [htext]
  split
  next heq =>
    obtain ⟨rfl, -⟩ := List.cons.inj heq
    exact absurd hc (by decide)
  next heq =>
    obtain ⟨rfl, -⟩ := List.cons.inj heq
    exact absurd hc (by decide)
  next => rfl

/-- A text of digits is a numeral, also after a minus sign. -/
theorem read_written {whole fraction : List Char} (hwhole : IsWhole whole)
    (hfraction : ∀ c ∈ fraction, c.isDigit) (negative : Bool) {text : String}
    (htext : text.toList = (if negative then ['-'] else []) ++ written whole fraction) :
    read? text = some ⟨negative,
      .decimal ⟨digitsValue (whole ++ fraction), -(fraction.length : Int)⟩⟩ := by
  obtain ⟨c, rest, rfl, hc⟩ := hwhole.exists_cons
  have hdecimal := decimal_written (List.cons_ne_nil c rest) hwhole.1 hfraction
  have hmagnitude : magnitude? (written (c :: rest) fraction) =
      some (.decimal ⟨digitsValue (c :: rest ++ fraction), -(fraction.length : Int)⟩) := by
    rw [magnitude?, hdecimal]
  cases negative with
  | true =>
      unfold read?
      rw [htext]
      show (magnitude? (written (c :: rest) fraction)).map _ = _
      rw [hmagnitude]
      rfl
  | false =>
      obtain ⟨more, hmore⟩ := written_eq_cons c rest fraction
      rw [read_of_digit (htext.trans hmore) hc, ← hmore, hmagnitude]
      rfl

end Numeral

namespace Binary64

open Numeral

/-- Digits are those before a number of zeros at their end. -/
theorem drop_zeros (digits : List Char) :
    ∃ count,
      (digits.reverse.dropWhile (· == '0')).reverse ++ List.replicate count '0' = digits := by
  refine ⟨(digits.reverse.takeWhile (· == '0')).length, ?_⟩
  have hzeros : (digits.reverse.takeWhile (· == '0')).reverse =
      List.replicate (digits.reverse.takeWhile (· == '0')).length '0' := by
    refine List.eq_replicate_iff.2 ⟨List.length_reverse, fun c hc => ?_⟩
    exact eq_of_beq (List.all_eq_true.1 List.all_takeWhile c (List.mem_reverse.1 hc))
  rw [← hzeros, ← List.reverse_append, List.takeWhile_append_dropWhile, List.reverse_reverse]

/-- The digits of a number, filled up with zeros on the left so that one stands before the last
places. -/
def fill (n places : Nat) : List Char :=
  List.replicate (places + 1 - (Nat.toDigits 10 n).length) '0' ++ Nat.toDigits 10 n

/-- Filled up digits are digits. -/
theorem is_digit_of_mem_fill {n places : Nat} {c : Char} (h : c ∈ fill n places) : c.isDigit := by
  rcases List.mem_append.1 h with h | h
  · rw [List.eq_of_mem_replicate h]
    rfl
  · exact Nat.isDigit_of_mem_toDigits (by decide) (by decide) h

/-- Filled up digits have the value of the number. -/
theorem digits_value_fill (n places : Nat) : digitsValue (fill n places) = n := by
  rw [fill, digits_value_append, digits_value_zeros, digits_value_to_digits, Nat.mul_zero,
    Nat.zero_add]

/-- The first of the filled up digits is the only one before the places, or it is not zero. -/
theorem fill_eq_cons {n : Nat} (hpos : 0 < n) (places : Nat) :
    ∃ c rest, fill n places = c :: rest ∧ places ≤ rest.length ∧
      (c = '0' ∧ rest.length = places ∨ c ≠ '0') := by
  unfold fill
  by_cases hfew : (Nat.toDigits 10 n).length ≤ places
  · obtain ⟨zeros, hzeros⟩ := Nat.exists_eq_add_of_le hfew
    have hcount : places + 1 - (Nat.toDigits 10 n).length = zeros + 1 := by omega
    have hlength : (List.replicate zeros '0' ++ Nat.toDigits 10 n).length = places := by
      rw [List.length_append, List.length_replicate]
      omega
    rw [hcount, List.replicate_succ]
    exact ⟨'0', _, rfl, Nat.le_of_eq hlength.symm, .inl ⟨rfl, hlength⟩⟩
  · obtain ⟨c, rest, hdigits, hc⟩ := to_digits_head hpos
    have hcount : places + 1 - (Nat.toDigits 10 n).length = 0 := by omega
    rw [hdigits, List.length_cons] at hfew
    rw [hcount, hdigits]
    exact ⟨c, rest, rfl, by omega, .inr hc⟩

/-- The filled up digits before the places stand before a point. -/
theorem is_whole_fill {n : Nat} (hpos : 0 < n) (places : Nat) :
    IsWhole ((fill n places).take ((fill n places).length - places)) := by
  refine ⟨fun c hc => is_digit_of_mem_fill (List.mem_of_mem_take hc), ?_⟩
  obtain ⟨c, rest, hfill, hlength, hc⟩ := fill_eq_cons hpos places
  have hcount : (c :: rest).length - places = rest.length - places + 1 := by
    rw [List.length_cons]
    omega
  rw [hfill, hcount, List.take_succ_cons]
  rcases hc with ⟨rfl, heq⟩ | hc
  · rw [heq, Nat.sub_self]
    exact .inl rfl
  · exact .inr ⟨c, _, rfl, hc⟩

/-- A decimal number with positive digits is written without an exponent and keeps its value. -/
theorem positional_written {value : Decimal} (hpos : 0 < value.digits) :
    ∃ whole fraction, (positional value).toList = written whole fraction ∧ IsWhole whole ∧
      (∀ c ∈ fraction, c.isDigit) ∧
      digitsValue (whole ++ fraction) * value.denominator =
        value.numerator * 10 ^ fraction.length := by
  obtain ⟨digits, exponent⟩ := value
  cases exponent with
  | ofNat power =>
      refine ⟨Nat.toDigits 10 digits ++ List.replicate power '0', [], ?_,
        is_whole_digits hpos power,
        fun _ hc => absurd hc List.not_mem_nil, ?_⟩
      · simp [positional, written]
      · rw [List.append_nil, digits_value_append, digits_value_to_digits, digits_value_zeros,
          List.length_replicate]
        simp [Decimal.numerator, Decimal.denominator, tenPow, Nat.mul_comm]
  | negSucc power =>
      have hwhole := is_whole_fill hpos (power + 1)
      have hsplit : _ = fill digits (power + 1) :=
        List.take_append_drop ((fill digits (power + 1)).length - (power + 1)) _
      generalize hw : (fill digits (power + 1)).take
          ((fill digits (power + 1)).length - (power + 1)) =
        whole at hwhole hsplit
      obtain ⟨count, hcount⟩ :=
        drop_zeros ((fill digits (power + 1)).drop ((fill digits (power + 1)).length - (power + 1)))
      generalize hf : (((fill digits (power + 1)).drop
        ((fill digits (power + 1)).length - (power + 1))).reverse.dropWhile (· == '0')).reverse =
        fraction at hcount
      have htext : positional ⟨digits, .negSucc power⟩ =
          if fraction.isEmpty then String.ofList whole
          else String.ofList (whole ++ '.' :: fraction) := by
        rw [← hw, ← hf]
        rfl
      refine ⟨whole, fraction, ?_, hwhole, fun c hc => ?_, ?_⟩
      · rw [htext]
        unfold written
        split <;> exact String.toList_ofList
      · have hmem := List.mem_append_left (List.replicate count '0') hc
        rw [hcount] at hmem
        exact is_digit_of_mem_fill (List.mem_of_mem_drop hmem)
      · -- the zeros that are left out count as places
        have hplaces : power + 1 = count + fraction.length := by
          obtain ⟨c, rest, hfill, hlength, -⟩ := fill_eq_cons hpos (power + 1)
          have hlengths := congrArg List.length hcount
          rw [hfill, List.length_append, List.length_replicate, List.length_drop,
            List.length_cons] at hlengths
          omega
        have hvalue := digits_value_fill digits (power + 1)
        rw [← hsplit, ← hcount, ← List.append_assoc, digits_value_append, digits_value_zeros,
          List.length_replicate, Nat.add_zero] at hvalue
        show digitsValue (whole ++ fraction) * 10 ^ (power + 1) = digits * 1 * 10 ^ fraction.length
        rw [hplaces, Nat.pow_add, Nat.mul_one, ← hvalue, ← Nat.mul_assoc, Nat.mul_comm (10 ^ count)]

/-! ## Reading back -/

/-- A decimal number in the interval of a positive finite number is read as this number. -/
theorem of_decimal_of_within {x : Binary64} (hpos : 0 < x.magnitude)
    (hfinite : x.magnitude < infinity) {digits places : Nat}
    (h : x.interval.Within digits (10 ^ places)) :
    ofDecimal ⟨digits, -(places : Int)⟩ = x.magnitude := by
  have hten : 0 < 10 ^ places := Nat.pow_pos (by decide)
  obtain ⟨hlow, -, -, -⟩ := interval_bounds hpos
  -- the number is not below half the least positive one
  have hleast : 2 * 10 ^ places ≤ digits * (4 * one) :=
    Nat.le_trans (Nat.mul_le_mul_right _ hlow) h.low_le
  have hdigits : digits ≠ 0 := by
    rintro rfl
    omega
  have hquotient := of_quotient_of_within hpos hfinite hten h
  unfold ofDecimal
  rw [if_neg hdigits]
  cases places with
  | zero =>
      show (if 400 < 0 then infinity else ofQuotient (digits * 1) 1) = _
      rw [if_neg (by decide), Nat.mul_one]
      exact hquotient
  | succ places =>
      show (if digits.log2 + 1100 ≤ 3 * (places + 1) then 0
        else ofQuotient digits (10 ^ (places + 1))) = _
      rw [if_neg fun hfew => ?_]
      · exact hquotient
      · obtain ⟨power, hpower, hone⟩ := four_mul_one
        have hlt : 2 ^ (digits.log2 + 1100) < 2 ^ (digits.log2 + 1 + power) :=
          calc 2 ^ (digits.log2 + 1100)
            _ ≤ 2 ^ (3 * (places + 1)) := Nat.pow_le_pow_right (by decide) hfew
            _ = (2 ^ 3) ^ (places + 1) := Nat.pow_mul ..
            _ ≤ 10 ^ (places + 1) := Nat.pow_le_pow_left (by decide) _
            _ < 2 * 10 ^ (places + 1) := by omega
            _ ≤ digits * 2 ^ power := hone ▸ hleast
            _ ≤ 2 ^ (digits.log2 + 1) * 2 ^ power :=
                Nat.mul_le_mul_right _ (Nat.le_of_lt Nat.lt_log2_self)
            _ = 2 ^ (digits.log2 + 1 + power) := (Nat.pow_add ..).symm
        have hless := (Nat.pow_lt_pow_iff_right (by decide)).1 hlt
        omega

/-- The text of a finite number is its sign and digits that stand for the number. -/
theorem to_text_written {x : Binary64} (hfinite : x.magnitude < infinity) :
    ∃ whole fraction,
      x.toText.toList = (if x.negative then ['-'] else []) ++ written whole fraction ∧
      IsWhole whole ∧ (∀ c ∈ fraction, c.isDigit) ∧
      ofDecimal ⟨digitsValue (whole ++ fraction), -(fraction.length : Int)⟩ = x.magnitude := by
  have hsign (body : String) : (if x.negative then "-" ++ body else body).toList =
      (if x.negative then ['-'] else []) ++ body.toList := by
    split
    · rw [String.toList_append]
      rfl
    · rfl
  unfold toText
  rw [if_neg (Nat.not_lt.2 (Nat.le_of_lt hfinite)), if_neg (Nat.ne_of_lt hfinite)]
  by_cases hzero : x.magnitude = 0
  · refine ⟨['0'], [], ?_, ⟨List.forall_mem_singleton.2 rfl, .inl rfl⟩,
      fun _ hc => absurd hc List.not_mem_nil, ?_⟩
    · rw [if_pos hzero]
      exact hsign "0"
    · rw [hzero]
      rfl
  · have hpos : 0 < x.magnitude := Nat.pos_of_ne_zero hzero
    have hwithin := shortest_within hpos hfinite
    obtain ⟨hlow, -, -, -⟩ := interval_bounds hpos
    have hdenominator : 0 < x.shortest.denominator := (ten_pow_pos _).2
    have hdigits : 0 < x.shortest.digits := by
      refine Nat.pos_of_ne_zero fun hnone => ?_
      have hle := Nat.le_trans (Nat.mul_le_mul_right _ hlow) hwithin.low_le
      rw [Decimal.numerator, hnone, Nat.zero_mul, Nat.zero_mul] at hle
      omega
    obtain ⟨whole, fraction, htext, hwhole, hfraction, hvalue⟩ := positional_written hdigits
    refine ⟨whole, fraction, ?_, hwhole, hfraction, of_decimal_of_within hpos hfinite ?_⟩
    · rw [if_neg hzero, ← htext]
      exact hsign _
    · exact hwithin.congr hdenominator (Nat.pow_pos (by decide)) hvalue.symm

/-- A finite number is read back from its text. -/
theorem read_to_text {x : Binary64} (hfinite : x.magnitude < infinity) :
    read? x.toText = some x := by
  obtain ⟨whole, fraction, htext, hwhole, hfraction, hvalue⟩ := to_text_written hfinite
  rw [read?, Numeral.read_written hwhole hfraction x.negative htext]
  simp only [Option.map_some, ofNumeral, hvalue]

end Binary64

end LetScript

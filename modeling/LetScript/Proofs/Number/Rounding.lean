import LetScript.Number.Shortest
import Mathlib.Algebra.Group.Nat.Defs

/-!
# Numbers are read from their intervals

A quotient that lies in the interval of a positive finite number is read as this number
(`Binary64.of_quotient_of_within`). The interval reaches half way to the neighbours of the number.
Below a power of two the neighbours are nearer, and a quotient just below it is first rounded with
the smaller unit of these neighbours, which again leads to the power of two.
-/

namespace LetScript.Binary64

/-! ## Rounding a quotient -/

/-- A quotient is rounded to a number that is at most one half away, and less than one half if the
number is odd. -/
theorem round_div_eq {numerator denominator m : Nat} (hpos : 0 < denominator)
    (hlow : 4 * (m * denominator) ≤ 4 * numerator + 2 * denominator)
    (hhigh : 4 * numerator ≤ 4 * (m * denominator) + 2 * denominator)
    (hodd : m % 2 = 1 → 4 * (m * denominator) < 4 * numerator + 2 * denominator ∧
      4 * numerator < 4 * (m * denominator) + 2 * denominator) :
    roundDiv numerator denominator = m := by
  have hdivision := Nat.div_add_mod' numerator denominator
  have hremainder := Nat.mod_lt numerator hpos
  simp only [roundDiv, Bool.or_eq_true, decide_eq_true_eq, Bool.and_eq_true, beq_iff_eq]
  generalize hq : numerator / denominator = q at *
  generalize hr : numerator % denominator = r at *
  -- the quotient is the number itself or the one below it
  have hle : q ≤ m := by
    refine Nat.le_of_not_lt fun hlt => ?_
    have hmul : (m + 1) * denominator ≤ q * denominator := Nat.mul_le_mul_right _ hlt
    rw [Nat.add_mul] at hmul
    omega
  have hge : m ≤ q + 1 := by
    refine Nat.le_of_not_lt fun hlt => ?_
    have hmul : (q + 1 + 1) * denominator ≤ m * denominator := Nat.mul_le_mul_right _ hlt
    rw [Nat.add_mul, Nat.add_mul] at hmul
    omega
  rcases Nat.eq_or_lt_of_le hle with rfl | hlt
  · have hdown : ¬ (denominator < 2 * r ∨ 2 * r = denominator ∧ q % 2 = 1) := by
      rintro (hmore | ⟨htie, hone⟩)
      · omega
      · have := (hodd hone).2
        omega
    rw [if_neg hdown]
  · obtain rfl : m = q + 1 := by omega
    rw [Nat.add_mul] at hlow hodd
    have hup : denominator < 2 * r ∨ 2 * r = denominator ∧ q % 2 = 1 := by
      by_cases heven : q % 2 = 1
      · omega
      · have := (hodd (by omega)).1
        omega
    rw [if_pos hup]

/-! ## The parts of a number -/

/-- A finite number is encoded by its scale and its significand. -/
theorem scale_add_significand (x : Binary64) :
    x.scale * leastNormal + x.significand = x.magnitude := by
  have hleast : leastNormal = 4503599627370496 := rfl
  simp only [scale, significand, hleast]
  split <;> omega

/-- A significand has at most 53 bits, and not fewer unless the scale is the least one. -/
theorem significand_bounds (x : Binary64) :
    x.significand < 2 * leastNormal ∧ (0 < x.scale → leastNormal ≤ x.significand) := by
  have hleast : leastNormal = 4503599627370496 := rfl
  simp only [scale, significand, hleast]
  split <;> omega

/-- The significand of a positive number is positive. -/
theorem significand_pos {x : Binary64} (h : 0 < x.magnitude) : 0 < x.significand := by
  have hleast : leastNormal = 4503599627370496 := rfl
  simp only [significand, hleast]
  split <;> omega

/-! ## Intervals -/

/-- A quotient lies in an interval. -/
structure Interval.Within (i : Interval) (numerator denominator : Nat) : Prop where
  low_le : i.low * denominator ≤ numerator * i.denominator
  le_high : numerator * i.denominator ≤ i.high * denominator
  inside : i.closed = false → i.low * denominator < numerator * i.denominator ∧
    numerator * i.denominator < i.high * denominator

/-- Equal quotients lie in the same intervals. -/
theorem Interval.Within.congr {i : Interval} {numerator denominator numerator' denominator' : Nat}
    (h : i.Within numerator denominator) (hpos : 0 < denominator) (hpos' : 0 < denominator')
    (heq : numerator * denominator' = numerator' * denominator) :
    i.Within numerator' denominator' := by
  have hvalue : numerator' * i.denominator * denominator =
      numerator * i.denominator * denominator' := by
    rw [Nat.mul_right_comm, ← heq, Nat.mul_right_comm]
  have hbound (bound : Nat) : bound * denominator' * denominator =
      bound * denominator * denominator' := Nat.mul_right_comm ..
  refine ⟨Nat.le_of_mul_le_mul_right ?_ hpos, Nat.le_of_mul_le_mul_right ?_ hpos, fun hopen =>
    ⟨Nat.lt_of_mul_lt_mul_right (a := denominator) ?_,
      Nat.lt_of_mul_lt_mul_right (a := denominator) ?_⟩⟩
  · rw [hvalue, hbound]
    exact Nat.mul_le_mul_right _ h.low_le
  · rw [hvalue, hbound]
    exact Nat.mul_le_mul_right _ h.le_high
  · rw [hvalue, hbound]
    exact Nat.mul_lt_mul_of_pos_right (h.inside hopen).1 hpos'
  · rw [hvalue, hbound]
    exact Nat.mul_lt_mul_of_pos_right (h.inside hopen).2 hpos'

/-- The scale of the number nearest to a quotient, from the powers of two around the quotient. -/
theorem quotient_scale_eq {numerator denominator scale : Nat} (hpos : 0 < denominator)
    (hlow : 0 < scale → 2 ^ (52 + scale) * denominator ≤ numerator * one)
    (hhigh : numerator * one < 2 ^ (53 + scale) * denominator) :
    quotientScale numerator denominator = scale := by
  have hlt : numerator * one / denominator < 2 ^ (53 + scale) :=
    (Nat.div_lt_iff_lt_mul hpos).2 hhigh
  have hlog : (numerator * one / denominator).log2 < 53 + scale := by
    by_cases hzero : numerator * one / denominator = 0
    · rw [hzero, Nat.log2_zero]
      omega
    · exact (Nat.log2_lt hzero).2 hlt
  simp only [quotientScale]
  by_cases hscale : 0 < scale
  · have hle : 2 ^ (52 + scale) ≤ numerator * one / denominator :=
      (Nat.le_div_iff_mul_le hpos).2 (hlow hscale)
    have hne : numerator * one / denominator ≠ 0 := by
      have := Nat.two_pow_pos (52 + scale)
      omega
    have hlog' := (Nat.le_log2 hne).2 hle
    omega
  · omega

/-- The scale of the number nearest to a quotient, from the significands of the scale. -/
theorem quotient_scale_of_significand {numerator denominator scale : Nat} (hpos : 0 < denominator)
    (hlow : 0 < scale → leastNormal * (denominator * 2 ^ scale) ≤ numerator * one)
    (hhigh : numerator * one < 2 * (leastNormal * (denominator * 2 ^ scale))) :
    quotientScale numerator denominator = scale := by
  have hleast : 2 ^ (52 + scale) * denominator = leastNormal * (denominator * 2 ^ scale) := by
    rw [Nat.pow_add, Nat.mul_assoc, Nat.mul_comm (2 ^ scale)]
    rfl
  have hnext : 2 ^ (53 + scale) * denominator =
      2 * (leastNormal * (denominator * 2 ^ scale)) := by
    rw [← hleast, ← Nat.mul_assoc, ← Nat.pow_succ', Nat.succ_eq_add_one, Nat.add_right_comm]
  refine quotient_scale_eq hpos (fun hscale => ?_) ?_
  · rw [hleast]
    exact hlow hscale
  · rwa [hnext]

/-- What it means for a quotient to lie in the interval of a positive number, in units of its last
digit. -/
theorem Interval.Within.bounds {x : Binary64} (hpos : 0 < x.magnitude) {numerator denominator : Nat}
    (h : x.interval.Within numerator denominator) {unit : Nat}
    (hunit : unit = denominator * 2 ^ x.scale) :
    4 * (x.significand * unit) ≤ 4 * (numerator * one) + 2 * unit ∧
      4 * (numerator * one) ≤ 4 * (x.significand * unit) + 2 * unit ∧
      (x.significand % 2 = 1 → 4 * (x.significand * unit) < 4 * (numerator * one) + 2 * unit ∧
        4 * (numerator * one) < 4 * (x.significand * unit) + 2 * unit) ∧
      (x.significand = leastNormal → 0 < x.scale →
        4 * (x.significand * unit) ≤ 4 * (numerator * one) + unit) := by
  have hsignificand := significand_pos hpos
  obtain ⟨below, hbelow, hle, hpower⟩ : ∃ below,
      x.interval.low = (4 * x.significand - below) * 2 ^ x.scale ∧ below ≤ 2 ∧
        (x.significand = leastNormal → 0 < x.scale → below = 1) := by
    refine ⟨_, rfl, ?_, fun heq hscale => ?_⟩
    · split <;> decide
    · rw [if_pos (by simp [heq, hscale])]
  have hhigh : x.interval.high = (4 * x.significand + 2) * 2 ^ x.scale := rfl
  have hclosed : x.interval.closed = (x.significand % 2 == 0) := rfl
  have hdenominator : x.interval.denominator = 4 * one := rfl
  obtain ⟨hlow_le, hle_high, hinside⟩ := h
  have hlow : x.interval.low * denominator + below * unit = 4 * (x.significand * unit) := by
    rw [hbelow, Nat.mul_right_comm, Nat.mul_assoc, ← hunit, ← Nat.add_mul,
      Nat.sub_add_cancel (by omega), Nat.mul_assoc]
  have hhigh' : x.interval.high * denominator = 4 * (x.significand * unit) + 2 * unit := by
    rw [hhigh, Nat.mul_right_comm, Nat.mul_assoc, ← hunit, Nat.add_mul, Nat.mul_assoc]
  have hvalue : numerator * x.interval.denominator = 4 * (numerator * one) := by
    rw [hdenominator, Nat.mul_left_comm]
  have hbelow_le : below * unit ≤ 2 * unit := Nat.mul_le_mul_right _ hle
  rw [hvalue] at hlow_le hle_high hinside
  refine ⟨by omega, by omega, fun hodd => ?_, fun heq hscale => ?_⟩
  · have := hinside (by rw [hclosed, hodd]; rfl)
    omega
  · rw [hpower heq hscale] at hlow
    omega

/-- A quotient in the interval of a positive finite number is read as this number. -/
theorem of_quotient_of_within {x : Binary64} (hpos : 0 < x.magnitude)
    (hfinite : x.magnitude < infinity) {numerator denominator : Nat}
    (hdenominator : 0 < denominator) (h : x.interval.Within numerator denominator) :
    ofQuotient numerator denominator = x.magnitude := by
  obtain ⟨hlt, hnormal⟩ := x.significand_bounds
  have hmagnitude := x.scale_add_significand
  obtain ⟨hlow, hhigh, hodd, hpower⟩ := h.bounds hpos rfl
  have hunit (scale : Nat) : 0 < denominator * 2 ^ scale :=
    Nat.mul_pos hdenominator (Nat.two_pow_pos scale)
  unfold ofQuotient
  by_cases hcase : 0 < x.scale → leastNormal * (denominator * 2 ^ x.scale) ≤ numerator * one
  · have hscale : quotientScale numerator denominator = x.scale := by
      have hmul := Nat.mul_le_mul_right (denominator * 2 ^ x.scale) (Nat.succ_le_of_lt hlt)
      rw [Nat.succ_mul, Nat.mul_assoc] at hmul
      have := hunit x.scale
      exact quotient_scale_of_significand hdenominator hcase (by omega)
    have hround : roundDiv (numerator * one) (denominator * Nat.pow 2 x.scale) = x.significand :=
      round_div_eq (hunit _) hlow hhigh hodd
    simp only [hscale, hround, hmagnitude]
    exact Nat.min_eq_left (Nat.le_of_lt hfinite)
  · -- the quotient is below the least number of this scale, so the number is a power of two
    obtain ⟨hscale, hbelow⟩ := Classical.not_imp.1 hcase
    have hleast : x.significand = leastNormal := by
      refine Nat.le_antisymm (Nat.le_of_not_lt fun hmore => ?_) (hnormal hscale)
      have hmul := Nat.mul_le_mul_right (denominator * 2 ^ x.scale) (Nat.succ_le_of_lt hmore)
      rw [Nat.succ_mul] at hmul
      omega
    have hnear := hpower hleast hscale
    obtain ⟨scale, hsucc⟩ : ∃ scale, x.scale = scale + 1 := Nat.exists_eq_add_one.2 hscale
    have hhalf : denominator * 2 ^ (scale + 1) = 2 * (denominator * 2 ^ scale) := by
      rw [Nat.pow_succ, Nat.mul_comm 2, Nat.mul_assoc]
    have hdouble : leastNormal * (2 * (denominator * 2 ^ scale)) =
        2 * (leastNormal * (denominator * 2 ^ scale)) := Nat.mul_left_comm ..
    rw [hleast, hsucc, hhalf] at hnear
    rw [hsucc, hhalf] at hbelow
    have hone := Nat.mul_le_mul_right (denominator * 2 ^ scale)
      (show 1 ≤ leastNormal from Nat.one_le_two_pow)
    have hquotient : quotientScale numerator denominator = scale :=
      quotient_scale_of_significand hdenominator (fun _ => by omega) (by omega)
    have hround : roundDiv (numerator * one) (denominator * Nat.pow 2 scale) = 2 * leastNormal := by
      refine round_div_eq (hunit _) ?_ ?_ fun hodd => ?_
      · rw [Nat.mul_assoc]
        show 4 * (2 * (leastNormal * (denominator * 2 ^ scale))) ≤ _ + 2 * (denominator * 2 ^ scale)
        omega
      · rw [Nat.mul_assoc]
        show _ ≤ 4 * (2 * (leastNormal * (denominator * 2 ^ scale))) + _
        omega
      · omega
    simp only [hquotient, hround]
    rw [hleast, hsucc, Nat.succ_mul] at hmagnitude
    rw [Nat.min_eq_left (by omega)]
    omega

end LetScript.Binary64

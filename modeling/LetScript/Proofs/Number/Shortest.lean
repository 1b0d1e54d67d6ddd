import LetScript.Proofs.Number.Rounding

/-!
# Shortest digits

The digits that are chosen for a positive finite number lie in its interval
(`Binary64.shortest_within`). Seventeen digits always suffice, because the interval is wider than a
unit of the seventeenth digit. For this the number of digits before the point must not be taken too
great: the search for it starts from a multiple of the binary logarithm that is close enough to the
decimal one.
-/

namespace LetScript

/-! ## Powers of ten -/

/-- A power of ten as a quotient. -/
def tenPow : Int → Nat × Nat
  | .ofNat power => (10 ^ power, 1)
  | .negSucc power => (1, 10 ^ (power + 1))

/-- The numerator of a decimal number as a quotient. -/
def Decimal.numerator (value : Decimal) : Nat := value.digits * (tenPow value.exponent).1

/-- The denominator of a decimal number as a quotient. -/
def Decimal.denominator (value : Decimal) : Nat := (tenPow value.exponent).2

/-- The parts of a power of ten are positive. -/
theorem ten_pow_pos (exponent : Int) : 0 < (tenPow exponent).1 ∧ 0 < (tenPow exponent).2 := by
  cases exponent with
  | ofNat power => exact ⟨Nat.pow_pos (by decide), Nat.one_pos⟩
  | negSucc power => exact ⟨Nat.one_pos, Nat.pow_pos (by decide)⟩

/-- Powers of ten are multiplied by adding exponents. -/
theorem ten_pow_add (exponent : Int) (power : Nat) :
    (tenPow (exponent + power)).1 * (tenPow exponent).2 =
      (tenPow exponent).1 * 10 ^ power * (tenPow (exponent + power)).2 := by
  cases exponent with
  | ofNat start =>
      have hsum : Int.ofNat start + power = Int.ofNat (start + power) := rfl
      rw [hsum]
      simp only [tenPow, Nat.mul_one, Nat.pow_add]
  | negSucc start =>
      by_cases hle : power ≤ start
      · have hsum : Int.negSucc start + power = Int.negSucc (start - power) := by omega
        rw [hsum]
        simp only [tenPow, Nat.one_mul, ← Nat.pow_add]
        congr 1
        omega
      · have hsum : Int.negSucc start + power = Int.ofNat (power - start - 1) := by
          rw [Int.ofNat_eq_natCast]
          omega
        rw [hsum]
        simp only [tenPow, Nat.one_mul, Nat.mul_one, ← Nat.pow_add]
        congr 1
        omega

namespace Binary64

/-- Comparing a quotient with a power of ten. -/
theorem lt_ten_pow_iff (numerator denominator : Nat) (exponent : Int) :
    ltTenPow numerator denominator exponent ↔
      numerator * (tenPow exponent).2 < denominator * (tenPow exponent).1 := by
  cases exponent with
  | ofNat power => simp [ltTenPow, tenPow]
  | negSucc power => simp [ltTenPow, tenPow]

/-! ## Candidates -/

/-- One number is below another in an interval: the ends count if the interval is closed. -/
def Interval.Orders (i : Interval) (m n : Nat) : Prop := if i.closed then m ≤ n else m < n

instance (i : Interval) (m n : Nat) : Decidable (i.Orders m n) :=
  inferInstanceAs (Decidable (if i.closed then m ≤ n else m < n))

/-- Numbers in an interval are ordered, and strictly if it is open. -/
theorem Interval.Orders.le {i : Interval} {m n : Nat} (h : i.Orders m n) :
    m ≤ n ∧ (i.closed = false → m < n) := by
  unfold Orders at h
  split at h
  next hclosed => exact ⟨h, fun hopen => absurd (hclosed.symm.trans hopen) (by decide)⟩
  next => exact ⟨Nat.le_of_lt h, fun _ => h⟩

/-- Numbers that are not ordered in an interval are in the opposite order. -/
theorem Interval.le_of_not_orders {i : Interval} {m n : Nat} (h : ¬ i.Orders m n) : n ≤ m := by
  unfold Orders at h
  split at h
  next => exact Nat.le_of_lt (Nat.lt_of_not_le h)
  next => exact Nat.le_of_not_lt h

/-- The candidate with a number of digits is one of the two decimal numbers around the value, and
there is none if both are outside the interval. -/
theorem candidate_cases (i : Interval) (width : Int) (count : Nat) :
    let unit := i.denominator * (tenPow (width - count)).1
    let grow := (tenPow (width - count)).2
    let lower := i.value * grow / unit
    (candidate? i width count = some ⟨lower + 1, width - count⟩ ∧
        i.Orders ((lower + 1) * unit) (i.high * grow)) ∨
      (candidate? i width count = some ⟨lower, width - count⟩ ∧
        i.Orders (i.low * grow) (lower * unit)) ∨
      (candidate? i width count = none ∧ ¬ i.Orders ((lower + 1) * unit) (i.high * grow) ∧
        ¬ i.Orders (i.low * grow) (lower * unit)) := by
  intro unit grow lower
  have hcandidate : candidate? i width count =
      if i.Orders ((lower + 1) * unit) (i.high * grow) &&
          (!decide (i.Orders (i.low * grow) (lower * unit)) ||
            unit ≤ 2 * (i.value * grow - lower * unit)) then
        some ⟨lower + 1, width - count⟩
      else if i.Orders (i.low * grow) (lower * unit) then some ⟨lower, width - count⟩
      else none := by
    subst unit grow lower
    unfold candidate?
    cases width - (count : Int) with
    | ofNat power => rfl
    | negSucc power =>
        simp only [tenPow, Nat.mul_one]
        rfl
  rw [hcandidate]
  by_cases hupper : i.Orders ((lower + 1) * unit) (i.high * grow) <;>
    by_cases hlower : i.Orders (i.low * grow) (lower * unit) <;>
    by_cases hnearer : unit ≤ 2 * (i.value * grow - lower * unit) <;>
    simp [hupper, hlower, hnearer]

/-- A candidate lies in the interval. -/
theorem candidate_within {i : Interval} (hlow : i.low < i.value) (hhigh : i.value < i.high)
    (hdenominator : 0 < i.denominator) {width : Int} {count : Nat} {value : Decimal}
    (h : candidate? i width count = some value) :
    i.Within value.numerator value.denominator := by
  have hcases := candidate_cases i width count
  dsimp only at hcases
  generalize width - count = exponent at hcases
  obtain ⟨hup, hgrow⟩ := ten_pow_pos exponent
  generalize hunit : i.denominator * (tenPow exponent).1 = unit at hcases
  generalize hlower : i.value * (tenPow exponent).2 / unit = lower at hcases
  have hunitPos : 0 < unit := hunit ▸ Nat.mul_pos hdenominator hup
  -- a candidate is a number of units, and the value lies between the two around it
  have hunits (digits : Nat) : digits * (tenPow exponent).1 * i.denominator = digits * unit := by
    rw [Nat.mul_assoc, Nat.mul_comm (tenPow exponent).1, hunit]
  have hbelow : lower * unit ≤ i.value * (tenPow exponent).2 := by
    rw [← hlower]
    exact Nat.div_mul_le_self ..
  have habove : i.value * (tenPow exponent).2 < (lower + 1) * unit := by
    rw [← hlower]
    exact Nat.lt_mul_of_div_lt (Nat.lt_succ_self _) hunitPos
  have hlow' := Nat.mul_lt_mul_of_pos_right hlow hgrow
  have hhigh' := Nat.mul_lt_mul_of_pos_right hhigh hgrow
  rcases hcases with ⟨hvalue, horders⟩ | ⟨hvalue, horders⟩ | ⟨hvalue, -⟩
  · obtain rfl := Option.some.inj (h.symm.trans hvalue)
    obtain ⟨hle, hlt⟩ := horders.le
    refine ⟨?_, ?_, fun hopen => ?_⟩ <;> simp only [Decimal.numerator, Decimal.denominator, hunits]
    · omega
    · exact hle
    · exact ⟨by omega, hlt hopen⟩
  · obtain rfl := Option.some.inj (h.symm.trans hvalue)
    obtain ⟨hle, hlt⟩ := horders.le
    refine ⟨?_, ?_, fun hopen => ?_⟩ <;> simp only [Decimal.numerator, Decimal.denominator, hunits]
    · exact hle
    · omega
    · exact ⟨hlt hopen, by omega⟩
  · rw [hvalue] at h
    cases h

/-- Some candidate has a number of digits if a unit of its last digit is small enough: the interval
is wider than the unit. -/
theorem candidate_is_some {x : Binary64} (hpos : 0 < x.magnitude) {width : Int} {count : Nat}
    (h : x.interval.denominator * (tenPow (width - count)).1 * 10 ^ 16 ≤
      x.interval.value * (tenPow (width - count)).2) :
    (candidate? x.interval width count).isSome := by
  obtain ⟨hlt, -⟩ := x.significand_bounds
  have hsignificand := significand_pos hpos
  have hleast : leastNormal = 4503599627370496 := rfl
  have hcases := candidate_cases x.interval width count
  dsimp only at hcases
  generalize width - count = exponent at h hcases
  generalize x.interval.denominator * (tenPow exponent).1 = unit at h hcases
  generalize x.interval.value * (tenPow exponent).2 / unit = lower at hcases
  rcases hcases with ⟨hvalue, -⟩ | ⟨hvalue, -⟩ | ⟨-, hupper, hlower⟩
  · rw [hvalue]
    rfl
  · rw [hvalue]
    rfl
  · -- neither of the two numbers around the value lies in the interval, so a unit is too great
    have hhigh := Interval.le_of_not_orders hupper
    have hlow := Interval.le_of_not_orders hlower
    obtain ⟨below, hbelow, hpower⟩ : ∃ below,
        x.interval.low = (4 * x.significand - below) * 2 ^ x.scale ∧
          (below = 2 ∨ below = 1 ∧ x.significand = leastNormal) := by
      refine ⟨_, rfl, ?_⟩
      split
      next hpower => exact .inr ⟨rfl, of_decide_eq_true (Bool.and_eq_true_iff.1 hpower).1⟩
      next => exact .inl rfl
    have hvalue : x.interval.value = 4 * x.significand * 2 ^ x.scale := rfl
    have hhigh' : x.interval.high = (4 * x.significand + 2) * 2 ^ x.scale := rfl
    have hscaled : 0 < 2 ^ x.scale * (tenPow exponent).2 :=
      Nat.mul_pos (Nat.two_pow_pos _) (ten_pow_pos exponent).2
    rw [hbelow, Nat.mul_assoc, Nat.sub_mul, Nat.mul_assoc] at hlow
    have hnext : (lower + 1) * unit = lower * unit + unit := Nat.succ_mul ..
    rw [hhigh', Nat.mul_assoc, Nat.add_mul, Nat.mul_assoc, hnext] at hhigh
    rw [hvalue, Nat.mul_assoc, Nat.mul_assoc] at h
    generalize 2 ^ x.scale * (tenPow exponent).2 = scaled at *
    have hmul := Nat.mul_le_mul_right scaled (Nat.succ_le_of_lt hlt)
    have hmul' := Nat.mul_le_mul_right scaled (Nat.succ_le_of_lt hsignificand)
    rw [hleast, Nat.succ_mul] at hmul
    rcases hpower with rfl | ⟨rfl, hpower⟩
    · omega
    · have hleast' : x.significand * scaled = 4503599627370496 * scaled := by rw [hpower, hleast]
      omega

/-- The first candidate is one if there is one among those that are tried. -/
theorem first_candidate_of_is_some {i : Interval} {width : Int} {count more tries : Nat}
    (hlt : more < tries) (h : (candidate? i width (count + more)).isSome) :
    ∃ value found, firstCandidate i width count tries = some value ∧
      candidate? i width found = some value := by
  induction tries generalizing count more with
  | zero => omega
  | succ tries ih =>
      unfold firstCandidate
      cases hcase : candidate? i width count with
      | some value => exact ⟨value, count, rfl, hcase⟩
      | none =>
          cases more with
          | zero =>
              rw [Nat.add_zero, hcase] at h
              cases h
          | succ more => exact ih (Nat.lt_of_succ_lt_succ hlt) (by rwa [Nat.add_right_comm])

/-! ## The number of digits before the point -/

/-- The power that is found does not exceed the quotient tenfold, if the first one does not. -/
theorem first_pow_above_le {numerator denominator : Nat} {start : Int} (tries : Nat)
    (h : ¬ ltTenPow numerator denominator (start - 1)) :
    ¬ ltTenPow numerator denominator (firstPowAbove numerator denominator start tries - 1) := by
  induction tries generalizing start with
  | zero => exact h
  | succ tries ih =>
      unfold firstPowAbove
      split
      · exact h
      next hstart =>
        refine ih ?_
        rwa [Int.add_sub_cancel]

/-- Powers of two bases, if their exponents are in the ratio of two exponents for which the powers
are close. -/
theorem pow_le_of_ratio {a b c k l m n : Nat} (ha : 0 < a) (hc : 0 < c) (hk : k ≠ 0)
    (hbase : a ^ l ≤ c * b ^ k) (hn : n ≤ k) (h : k * m ≤ l * n) : a ^ m ≤ c * b ^ n := by
  refine (Nat.pow_le_pow_iff_left hk).1 ?_
  calc (a ^ m) ^ k
    _ = a ^ (k * m) := by rw [← Nat.pow_mul, Nat.mul_comm]
    _ ≤ a ^ (l * n) := Nat.pow_le_pow_right ha h
    _ = (a ^ l) ^ n := Nat.pow_mul ..
    _ ≤ (c * b ^ k) ^ n := Nat.pow_le_pow_left hbase n
    _ = c ^ n * (b ^ n) ^ k := by rw [Nat.mul_pow, Nat.pow_right_comm]
    _ ≤ c ^ k * (b ^ n) ^ k := Nat.mul_le_mul_right _ (Nat.pow_le_pow_right hc hn)
    _ = (c * b ^ n) ^ k := (Nat.mul_pow ..).symm

/-- A quotient that is at least a power of two is not below a tenth of the power of ten next to
it. -/
theorem not_lt_ten_pow_of_le {numerator denominator power : Nat} (hpower : power ≤ 100000)
    (h : denominator * 2 ^ power ≤ numerator) :
    ¬ ltTenPow numerator denominator ((power : Int) * 30103 / 100000 - 1) := by
  obtain ⟨start, hstart, hratio⟩ : ∃ start : Nat,
      (power : Int) * 30103 / 100000 = start ∧ 100000 * start ≤ 30103 * power :=
    ⟨30103 * power / 100000, by omega, by omega⟩
  rw [lt_ten_pow_iff, Nat.not_lt, hstart]
  cases start with
  | zero =>
      show denominator * 1 ≤ numerator * 10 ^ 1
      have := Nat.le_trans (Nat.le_mul_of_pos_right denominator (Nat.two_pow_pos power)) h
      omega
  | succ start =>
      have hpow : 10 ^ (start + 1) ≤ 2 * 2 ^ power :=
        pow_le_of_ratio (k := 100000) (l := 30103) (by decide) (by decide) (by decide)
          (by decide +kernel) hpower hratio
      have hexponent : ((start + 1 : Nat) : Int) - 1 = Int.ofNat start := by
        rw [Int.ofNat_eq_natCast]
        omega
      rw [hexponent]
      show denominator * 10 ^ start ≤ numerator * 1
      rw [Nat.pow_succ] at hpow
      have hle : 10 ^ start ≤ 2 ^ power := by omega
      rw [Nat.mul_one]
      exact Nat.le_trans (Nat.mul_le_mul_left denominator hle) h

/-- A quotient that is at least the inverse of a power of two is not below a tenth of the power of
ten next to it. -/
theorem not_lt_ten_pow_of_inverse_le {numerator denominator power : Nat} (hpower : power ≤ 100000)
    (h : denominator ≤ numerator * 2 ^ power) :
    ¬ ltTenPow numerator denominator (-(power : Int) * 30103 / 100000 - 1) := by
  obtain ⟨start, hstart, hratio, hle⟩ : ∃ start : Nat,
      -(power : Int) * 30103 / 100000 - 1 = Int.negSucc start ∧
        30103 * power ≤ 100000 * start ∧ start ≤ 30103 :=
    ⟨(30103 * power + 99999) / 100000, by omega, by omega, by omega⟩
  rw [lt_ten_pow_iff, Nat.not_lt, hstart]
  show denominator * 1 ≤ numerator * 10 ^ (start + 1)
  have hpow : 2 ^ power ≤ 1 * 10 ^ start :=
    pow_le_of_ratio (k := 30103) (l := 100000) (by decide) (by decide) (by decide)
      (by decide +kernel) hle hratio
  have hpow' : 2 ^ power ≤ 10 ^ (start + 1) := by
    rw [Nat.pow_succ]
    omega
  rw [Nat.mul_one]
  exact Nat.le_trans h (Nat.mul_le_mul_left numerator hpow')

/-- The search for the number of digits starts at a power of ten that is not too great. -/
theorem start_pow_le {numerator denominator : Nat} (hnumerator : 0 < numerator)
    (hless : numerator.log2 ≤ denominator.log2 + 30103)
    (hmore : denominator.log2 ≤ numerator.log2 + 30103) :
    ¬ ltTenPow numerator denominator
      (((numerator.log2 : Int) - denominator.log2 - 1) * 30103 / 100000 - 1) := by
  have hlow : 2 ^ numerator.log2 ≤ numerator := Nat.log2_self_le (by omega)
  have hhigh : denominator ≤ 2 ^ (denominator.log2 + 1) := Nat.le_of_lt Nat.lt_log2_self
  generalize numerator.log2 = a at *
  generalize denominator.log2 = b at *
  by_cases hcase : b + 1 ≤ a
  · obtain ⟨power, rfl⟩ : ∃ power, a = b + 1 + power := Nat.exists_eq_add_of_le hcase
    have hdenominator : denominator * 2 ^ power ≤ numerator := by
      refine Nat.le_trans (Nat.mul_le_mul_right _ hhigh) ?_
      rwa [← Nat.pow_add]
    have hexponent : ((b + 1 + power : Nat) : Int) - b - 1 = power := by omega
    rw [hexponent]
    exact not_lt_ten_pow_of_le (by omega) hdenominator
  · obtain ⟨power, hpower⟩ : ∃ power, b + 1 = a + power := Nat.exists_eq_add_of_le (by omega)
    have hdenominator : denominator ≤ numerator * 2 ^ power := by
      refine Nat.le_trans hhigh ?_
      rw [hpower, Nat.pow_add]
      exact Nat.mul_le_mul_right _ hlow
    have hexponent : (a : Int) - b - 1 = -(power : Int) := by omega
    rw [hexponent]
    exact not_lt_ten_pow_of_inverse_le (by omega) hdenominator

/-- The number of digits before the point is not too great. -/
theorem integral_width_le {numerator denominator : Nat} (hnumerator : 0 < numerator)
    (hless : numerator.log2 ≤ denominator.log2 + 30103)
    (hmore : denominator.log2 ≤ numerator.log2 + 30103) :
    ¬ ltTenPow numerator denominator (integralWidth numerator denominator - 1) :=
  first_pow_above_le 3 (start_pow_le hnumerator hless hmore)

/-- The number of least units in four is a power of two. The power is too great to be computed. -/
theorem four_mul_one : ∃ power, power = 1076 ∧ 4 * one = 2 ^ power := by
  have hpow (power : Nat) : 4 * Nat.pow 2 power = 2 ^ (2 + power) := by
    rw [Nat.pow_add]
    rfl
  refine ⟨2 + 1074, rfl, ?_⟩
  delta one
  generalize 1074 = power
  exact hpow power

/-- A positive number lies inside its interval, above two of the least units. -/
theorem interval_bounds {x : Binary64} (hpos : 0 < x.magnitude) :
    2 ≤ x.interval.low ∧ x.interval.low < x.interval.value ∧
      x.interval.value < x.interval.high ∧ 0 < x.interval.denominator := by
  have hsignificand := significand_pos hpos
  have hunit : 0 < Nat.pow 2 x.scale := Nat.two_pow_pos _
  have hone : 0 < 4 * one := by
    obtain ⟨power, -, hone⟩ := four_mul_one
    rw [hone]
    exact Nat.two_pow_pos power
  unfold interval
  refine ⟨?_, Nat.mul_lt_mul_of_pos_right ?_ hunit, Nat.mul_lt_mul_of_pos_right ?_ hunit, ?_⟩
  · refine Nat.le_trans ?_ (Nat.le_mul_of_pos_right _ hunit)
    split <;> omega
  · split <;> omega
  · omega
  · exact hone

/-- The search for the number of digits covers all finite numbers. -/
theorem interval_log_bounds {x : Binary64} (hpos : 0 < x.magnitude)
    (hfinite : x.magnitude < infinity) :
    x.interval.value.log2 ≤ x.interval.denominator.log2 + 30103 ∧
      x.interval.denominator.log2 ≤ x.interval.value.log2 + 30103 := by
  have hdenominator : x.interval.denominator.log2 = 1076 := by
    obtain ⟨power, hpower, hone⟩ := four_mul_one
    rw [show x.interval.denominator = 4 * one from rfl, hone, Nat.log2_two_pow, hpower]
  have hscale : x.scale < 2046 := by
    have hinfinity : infinity = 2047 * 4503599627370496 := rfl
    have hleast : leastNormal = 4503599627370496 := rfl
    simp only [scale, hleast]
    omega
  have hvalue : x.interval.value < 2 ^ (55 + x.scale) := by
    obtain ⟨hlt, -⟩ := x.significand_bounds
    have hleast : leastNormal = 4503599627370496 := rfl
    show 4 * x.significand * 2 ^ x.scale < _
    rw [Nat.pow_add]
    exact Nat.mul_lt_mul_of_pos_right (by omega) (Nat.two_pow_pos _)
  have hne : x.interval.value ≠ 0 := by
    have := interval_bounds hpos
    omega
  have hlog := (Nat.log2_lt hne).2 hvalue
  omega

/-- The shortest digits of a positive finite number are one of the candidates. -/
theorem shortest_candidate {x : Binary64} (hpos : 0 < x.magnitude)
    (hfinite : x.magnitude < infinity) :
    ∃ width count, candidate? x.interval width count = some x.shortest := by
  obtain ⟨-, hlow, -, -⟩ := interval_bounds hpos
  obtain ⟨hless, hmore⟩ := interval_log_bounds hpos hfinite
  have hwidth := integral_width_le (by omega) hless hmore
  have hshortest : x.shortest = (firstCandidate x.interval
      (integralWidth x.interval.value x.interval.denominator) 1 17).getD ⟨0, 0⟩ := rfl
  rw [hshortest]
  generalize integralWidth x.interval.value x.interval.denominator = width at *
  rw [lt_ten_pow_iff, Nat.not_lt] at hwidth
  have hsum : width - 1 = width - (17 : Nat) + (16 : Nat) := by omega
  have hadd := ten_pow_add (width - (17 : Nat)) 16
  rw [← hsum] at hadd
  -- a unit of the seventeenth digit is at most the value over ten to the sixteen
  have hsmall : (candidate? x.interval width (1 + 16)).isSome := by
    refine candidate_is_some hpos (Nat.le_of_mul_le_mul_right ?_ (ten_pow_pos (width - 1)).2)
    calc x.interval.denominator * (tenPow (width - (17 : Nat))).1 * 10 ^ 16 * (tenPow (width - 1)).2
      _ = x.interval.denominator * (tenPow (width - 1)).1 * (tenPow (width - (17 : Nat))).2 := by
          rw [Nat.mul_assoc, Nat.mul_assoc, Nat.mul_assoc, hadd, Nat.mul_assoc]
      _ ≤ x.interval.value * (tenPow (width - 1)).2 * (tenPow (width - (17 : Nat))).2 :=
          Nat.mul_le_mul_right _ hwidth
      _ = x.interval.value * (tenPow (width - (17 : Nat))).2 * (tenPow (width - 1)).2 :=
          Nat.mul_right_comm ..
  have htries : 16 < 17 := by decide
  obtain ⟨value, count, hfirst, hvalue⟩ := first_candidate_of_is_some htries hsmall
  refine ⟨width, count, ?_⟩
  rw [hfirst]
  exact hvalue

/-- The shortest digits of a positive finite number lie in its interval. -/
theorem shortest_within {x : Binary64} (hpos : 0 < x.magnitude) (hfinite : x.magnitude < infinity) :
    x.interval.Within x.shortest.numerator x.shortest.denominator := by
  obtain ⟨-, hlow, hhigh, hdenominator⟩ := interval_bounds hpos
  obtain ⟨width, count, hvalue⟩ := shortest_candidate hpos hfinite
  exact candidate_within hlow hhigh hdenominator hvalue

end Binary64

end LetScript

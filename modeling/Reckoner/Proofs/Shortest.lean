import Mathlib.Tactic.NormNum.GCD
import Mathlib.Tactic.NormNum.Pow
import Reckoner.Number.Decimal
import Reckoner.Proofs.Rounding

/-! Shortest decimals. The multiples of a power of ten with seventeen digits are closer to each other
than doubles are, so the search for a decimal that reads back always ends with one, and its digits fit
into 64 bits. Reading it the other way, as digits scaled by a power of ten, may give another double,
though not if both are doubles themselves, and never leaves the range of doubles. -/

namespace Reckoner.Number

theorem digitCount_pos (n : Nat) : 0 < digitCount n := Nat.length_toDigits_pos

theorem lt_ten_pow_digitCount (n : Nat) : n < 10 ^ digitCount n :=
  (Nat.length_toDigits_le_iff (by decide) (digitCount_pos n)).mp le_rfl

theorem ten_pow_digitCount_le {n : Nat} (h : 0 < n) : 10 ^ (digitCount n - 1) ≤ n := by
  by_cases hone : digitCount n - 1 = 0
  · rw [hone, pow_zero]
    exact h
  · have hiff := Nat.length_toDigits_le_iff (b := 10) (n := n) (by decide) (Nat.pos_of_ne_zero hone)
    have hlong : ¬ digitCount n ≤ digitCount n - 1 := by
      have := digitCount_pos n
      omega
    exact not_lt.mp fun hlt => hlong (hiff.mpr hlt)

theorem decimalPlace_bounds {f : Fraction} (hnum : 0 < f.num) (hden : 0 < f.den) :
    (10 : ℚ) ^ (decimalPlace f - 1) ≤ f.value ∧ f.value < 10 ^ decimalPlace f := by
  have hpos : (0 : ℚ) < f.den := by exact_mod_cast hden
  unfold decimalPlace
  split
  next hle =>
    have hfloor : 0 < f.floor := Nat.div_pos hle hden
    have hcount := digitCount_pos f.floor
    have hexponent : (digitCount f.floor : ℤ) - 1 = (digitCount f.floor - 1 : ℕ) := by omega
    rw [hexponent, zpow_natCast, zpow_natCast]
    constructor
    · refine le_trans ?_ f.floor_le
      exact_mod_cast ten_pow_digitCount_le hfloor
    · refine lt_of_lt_of_le (Fraction.lt_floor_succ hden) ?_
      exact_mod_cast lt_ten_pow_digitCount f.floor
  next hlt =>
    -- a number below one has its leading digit where the number of times that it fits into one has
    set times := (f.den - 1) / f.num with htimes
    have htimesPos : 0 < times := Nat.div_pos (by omega) hnum
    have hcount := digitCount_pos times
    have hlow : f.den ≤ f.num * 10 ^ digitCount times := by
      have hmul := Nat.lt_mul_div_succ (f.den - 1) hnum
      have hfit := Nat.mul_le_mul_left f.num (lt_ten_pow_digitCount times)
      rw [← htimes] at hmul
      rw [Nat.succ_eq_add_one] at hfit
      omega
    have hhigh : f.num * 10 ^ (digitCount times - 1) < f.den := by
      have hmul := Nat.mul_div_le (f.den - 1) f.num
      have hfit := Nat.mul_le_mul_left f.num (ten_pow_digitCount_le htimesPos)
      rw [← htimes] at hmul
      omega
    have hlow : (f.den : ℚ) ≤ f.num * 10 ^ digitCount times := by exact_mod_cast hlow
    have hhigh : (f.num : ℚ) * 10 ^ (digitCount times - 1) < f.den := by exact_mod_cast hhigh
    have hexponent : (1 : ℤ) - digitCount times = -(digitCount times - 1 : ℕ) := by omega
    have hexponent' : (1 : ℤ) - digitCount times - 1 = -(digitCount times : ℤ) := by omega
    rw [hexponent', hexponent, zpow_neg, zpow_neg, zpow_natCast, zpow_natCast, Fraction.value]
    constructor
    · rw [inv_le_iff_one_le_mul₀ (by positivity), div_mul_eq_mul_div, le_div_iff₀ hpos]
      linarith
    · rw [lt_inv_comm₀ (by positivity) (by positivity), inv_div, lt_div_iff₀ (by positivity)]
      linarith

namespace Decimal

def value (d : Decimal) : ℚ := d.digits * 10 ^ d.power

theorem toFraction_den_pos (d : Decimal) : 0 < d.toFraction.den :=
  Fraction.scale_den_pos one_pos (by decide) _

theorem value_toFraction (d : Decimal) : d.toFraction.value = d.value := by
  unfold toFraction value
  rw [Fraction.value_scale _ (by decide)]
  simp [Fraction.value]

theorem toFraction_num_pos {d : Decimal} (h : d.digits ≠ 0) : 0 < d.toFraction.num :=
  Nat.mul_pos (Nat.pos_of_ne_zero h) (Nat.pow_pos (by decide))

theorem le_value_of_large {d : Decimal} (hdigits : d.digits ≠ 0) (hlarge : 400 < d.power) :
    2 ^ (1024 : ℕ) ≤ d.value := by
  have hone : (1 : ℚ) ≤ d.digits := by exact_mod_cast Nat.pos_of_ne_zero hdigits
  calc (2 : ℚ) ^ (1024 : ℕ) ≤ 2 ^ (1203 : ℕ) := pow_le_pow_right₀ one_le_two (by decide)
    _ = 8 ^ (401 : ℕ) := by rw [show (8 : ℚ) = 2 ^ 3 by norm_num, ← pow_mul]
    _ ≤ 10 ^ (401 : ℕ) := pow_le_pow_left₀ (by norm_num) (by norm_num) _
    _ ≤ 10 ^ d.power := by
        rw [← zpow_natCast]
        exact zpow_le_zpow_right₀ (by norm_num) (by omega)
    _ ≤ d.value := le_mul_of_one_le_left (by positivity) hone

theorem value_lt_of_small {d : Decimal} (hsmall : d.power < -(400 + d.digits.log2 : ℕ)) :
    d.value < gap 0 / 2 := by
  have hlog : (d.digits : ℚ) < 2 ^ (d.digits.log2 + 1) := by exact_mod_cast Nat.lt_log2_self
  calc d.value < 2 ^ (d.digits.log2 + 1) * 10 ^ d.power :=
        mul_lt_mul_of_pos_right hlog (by positivity)
    _ ≤ 2 ^ (d.digits.log2 + 1) * 10 ^ (-(401 + d.digits.log2 : ℕ) : ℤ) := by
        gcongr
        · norm_num
        · push_cast
          omega
    _ ≤ 8 ^ (d.digits.log2 + 1) * 8 ^ (-(401 + d.digits.log2 : ℕ) : ℤ) := by
        rw [zpow_neg, zpow_neg, zpow_natCast, zpow_natCast]
        gcongr <;> norm_num
    _ = 2 ^ (-1200 : ℤ) := by
        rw [← zpow_natCast, ← zpow_add₀ (by norm_num), show (8 : ℚ) = 2 ^ (3 : ℤ) by norm_num,
          ← zpow_mul]
        congr 1
        push_cast
        ring
    _ ≤ 2 ^ (-1075 : ℤ) := zpow_le_zpow_right₀ one_le_two (by norm_num)
    _ = gap 0 / 2 := by
        rw [gap, div_eq_mul_inv, ← zpow_sub_one₀ two_ne_zero]
        congr 1

/-- The shortcuts for very large and very small powers give what rounding gives. -/
theorem toDouble_eq (d : Decimal) : d.toDouble = nearest d.toFraction := by
  have hden := d.toFraction_den_pos
  unfold toDouble
  split
  next hzero => simp [nearest, toFraction, Fraction.scale, hzero]
  next hdigits =>
  split
  next hlarge =>
    have hbits : infinity = exponentWeight + 2046 * exponentWeight := by decide
    refine le_antisymm (le_nearest le_rfl hden ?_) (nearest_le_infinity _)
    rw [hbits, value_power, value_toFraction]
    exact le_value_of_large hdigits hlarge
  next hlarge =>
  split
  next hsmall =>
    have hpos : 0 < d.value := by
      have hone : (1 : ℚ) ≤ d.digits := by exact_mod_cast Nat.pos_of_ne_zero hdigits
      exact mul_pos (by linarith) (by positivity)
    have hzero : (Number.toFraction 0).value = 0 := by simp [Number.value_toFraction, mantissa]
    refine (nearest_eq_of_near (Nat.zero_le _) (toFraction_num_pos hdigits) hden ?_ ?_).symm
    · rw [value_toFraction, hzero, sub_zero, abs_of_pos hpos]
      exact value_lt_of_small hsmall
    · intro h
      exact absurd h (by decide)
  next => rfl

theorem toDouble_congr {d e : Decimal} (h : d.value = e.value) : d.toDouble = e.toDouble := by
  rw [toDouble_eq, toDouble_eq]
  apply nearest_congr d.toFraction_den_pos e.toFraction_den_pos
  rw [value_toFraction, value_toFraction, h]

/-! The search -/

variable {tie : Tie} {bits : Nat} {f : Fraction}

theorem neighbour?_eq_some {power : Int} {d : Decimal} (h : neighbour? tie bits f power = some d) :
    d.toDouble = bits ∧ d.digits ≤ (f.scale 10 (-power)).floor + 1 := by
  unfold neighbour? at h
  simp only at h
  split at h
  next hlow hhigh =>
    have hboth : d = ⟨(f.scale 10 (-power)).floor, power⟩ ∨
        d = ⟨(f.scale 10 (-power)).floor + 1, power⟩ := by
      grind
    rcases hboth with rfl | rfl
    · exact ⟨beq_iff_eq.mp hlow, by simp⟩
    · exact ⟨beq_iff_eq.mp hhigh, le_rfl⟩
  next hlow _ =>
    cases h
    exact ⟨beq_iff_eq.mp hlow, by simp⟩
  next _ hhigh =>
    cases h
    exact ⟨beq_iff_eq.mp hhigh, le_rfl⟩
  next => cases h

theorem isSome_neighbour? {power : Int} {digits : Nat}
    (hdigits : digits = (f.scale 10 (-power)).floor ∨ digits = (f.scale 10 (-power)).floor + 1)
    (h : toDouble ⟨digits, power⟩ = bits) : (neighbour? tie bits f power).isSome := by
  unfold neighbour?
  simp only
  split
  · grind
  · rfl
  · rfl
  next hlow hhigh =>
    simp only [beq_eq_false_iff_ne] at hlow hhigh
    rcases hdigits with rfl | rfl
    · exact absurd h hlow
    · exact absurd h hhigh

theorem search_eq_some {place : Int} {more count : Nat} {d : Decimal}
    (h : search tie bits f place more count = some d) :
    ∃ j < count + more, neighbour? tie bits f (place - j) = some d := by
  induction more generalizing count with
  | zero => cases h
  | succ more ih =>
    unfold search at h
    rcases Option.or_eq_some_iff.mp h with hfound | ⟨_, hlater⟩
    · exact ⟨count, by omega, hfound⟩
    · obtain ⟨j, hj, hfound⟩ := ih hlater
      exact ⟨j, by omega, hfound⟩

theorem isSome_search {place : Int} {more count j : Nat} (hle : count ≤ j) (hlt : j < count + more)
    (h : (neighbour? tie bits f (place - j)).isSome) :
    (search tie bits f place more count).isSome := by
  induction more generalizing count with
  | zero => omega
  | succ more ih =>
    unfold search
    rw [Option.isSome_or]
    by_cases heq : count = j
    · simp [heq, h]
    · have hlater := @ih (count + 1) (by omega) (by omega)
      simp [hlater]

/-- Numbers of seventeen digits are less than a gap apart, and less than half of one next to the least
double of a step. -/
theorem seventeen_digits_lt_gap (hpos : 0 < bits) {power : Int}
    (hpower : power = decimalPlace (Number.toFraction bits) - 17) :
    (10 : ℚ) ^ power < gap (step bits) ∧
      (mantissa bits = exponentWeight → (10 : ℚ) ^ power < gap (step bits) / 2) := by
  have hplace := (decimalPlace_bounds (Number.toFraction_num_pos hpos)
    (Number.toFraction_den_pos bits)).1
  have hwide : (10 : ℚ) ^ power * 10 ^ 16 ≤ mantissa bits * gap (step bits) := by
    rw [← Number.value_toFraction]
    refine le_trans (le_of_eq ?_) hplace
    rw [← zpow_natCast, ← zpow_add₀ (by norm_num), hpower]
    congr 1
    ring
  have hgap := gap_pos (step bits)
  have hlt : (mantissa bits : ℚ) < 2 * exponentWeight := by exact_mod_cast mantissa_lt bits
  have hweight : (exponentWeight : ℚ) = 4503599627370496 := by norm_num [exponentWeight]
  constructor
  · nlinarith
  · intro hleast
    rw [hleast, hweight] at hwide
    nlinarith

/-- Seventeen digits are enough: the nearer neighbour reads back. -/
theorem exists_neighbour (hpos : 0 < bits) (hfinite : bits < infinity) :
    (neighbour? tie bits (Number.toFraction bits)
      (decimalPlace (Number.toFraction bits) - 17)).isSome := by
  set f := Number.toFraction bits with hf
  set power := decimalPlace f - 17 with hpower
  obtain ⟨hclose, hcloser⟩ := seventeen_digits_lt_gap hpos hpower
  set ten : ℚ := 10 ^ power with hten
  have htenPos : 0 < ten := by positivity
  have hscaled : (f.scale 10 (-power)).value * ten = f.value :=
    f.value_scale_neg_mul (by decide) power
  set floor := (f.scale 10 (-power)).floor with hfloor
  have hlow : floor * ten ≤ f.value := by
    rw [← hscaled]
    exact mul_le_mul_of_nonneg_right (Fraction.floor_le _) htenPos.le
  have hhigh : f.value < (floor + 1) * ten := by
    have hden := Fraction.scale_den_pos (Number.toFraction_den_pos bits) (by decide : 0 < 10) (-power)
    rw [← hscaled]
    exact mul_lt_mul_of_pos_right (Fraction.lt_floor_succ hden) htenPos
  have hread {digits : Nat} (hnear : |digits * ten - f.value| ≤ ten / 2) :
      toDouble ⟨digits, power⟩ = bits := by
    have hdigits : digits ≠ 0 := by
      rintro rfl
      have hvalue : f.value = mantissa bits * gap (step bits) := Number.value_toFraction bits
      have hone : (1 : ℚ) ≤ mantissa bits := by exact_mod_cast mantissa_pos hpos
      have hbound := (abs_le.mp hnear).1
      rw [hvalue, Nat.cast_zero, zero_mul] at hbound
      nlinarith
    rw [toDouble_eq]
    apply nearest_eq_of_near hfinite.le (toFraction_num_pos hdigits) (toFraction_den_pos _)
    · rw [value_toFraction, value]
      linarith
    · intro hleast
      have hless := hcloser hleast
      have hbound := (abs_le.mp hnear).1
      rw [value_toFraction, value]
      linarith
  by_cases hnearer : f.value - floor * ten ≤ ten / 2
  · apply isSome_neighbour? (.inl rfl)
    apply hread
    rw [abs_le]
    constructor <;> linarith
  · apply isSome_neighbour? (.inr rfl)
    apply hread
    rw [abs_le]
    push_cast
    constructor <;> linarith

theorem value_strip (fuel : Nat) (d : Decimal) : (strip fuel d).value = d.value := by
  induction fuel generalizing d with
  | zero => rfl
  | succ fuel ih =>
    unfold strip
    split
    next h =>
      have hdigits : d.digits = d.digits / 10 * 10 := by omega
      rw [ih]
      unfold value
      rw [zpow_add_one₀ (by norm_num), ← mul_assoc, mul_right_comm]
      conv_rhs => rw [hdigits]
      push_cast
      ring
    next => rfl

theorem strip_digits_le (fuel : Nat) (d : Decimal) : (strip fuel d).digits ≤ d.digits := by
  induction fuel generalizing d with
  | zero => exact le_rfl
  | succ fuel ih =>
    unfold strip
    split
    · exact (ih _).trans (Nat.div_le_self _ _)
    · exact le_rfl

theorem neighbour?_digits_le {place : Int} {j : Nat} {d : Decimal}
    (hplace : f.value < 10 ^ place) (h : neighbour? tie bits f (place - j) = some d) :
    d.digits ≤ 10 ^ j := by
  refine (neighbour?_eq_some h).2.trans (Nat.succ_le_of_lt ?_)
  have hfloor : ((f.scale 10 (-(place - j))).floor : ℚ) < 10 ^ j := by
    calc ((f.scale 10 (-(place - j))).floor : ℚ) ≤ (f.scale 10 (-(place - j))).value :=
          Fraction.floor_le _
      _ = f.value * 10 ^ (-(place - j)) := by
          rw [Fraction.value_scale f (by decide), Nat.cast_ofNat]
      _ < 10 ^ place * 10 ^ (-(place - j)) := mul_lt_mul_of_pos_right hplace (by positivity)
      _ = 10 ^ j := by
          rw [← zpow_add₀ (by norm_num), ← zpow_natCast]
          congr 1
          ring
  exact_mod_cast hfloor

/-- The shortest decimal of a double reads back as it, and has at most seventeen digits. -/
theorem shortest_spec (tie : Tie) (hpos : 0 < bits) (hfinite : bits < infinity) :
    (shortest tie bits).toDouble = bits ∧ (shortest tie bits).digits ≤ 10 ^ 17 := by
  set f := Number.toFraction bits with hf
  have hden : 0 < f.den := Number.toFraction_den_pos bits
  have hplace := (decimalPlace_bounds (Number.toFraction_num_pos hpos) hden).2
  have hsearch : (search tie bits f (decimalPlace f) 17 1).isSome :=
    isSome_search (j := 17) (by decide) (by decide) (exists_neighbour hpos hfinite)
  obtain ⟨d, hd⟩ := Option.isSome_iff_exists.mp hsearch
  obtain ⟨j, hj, hfound⟩ := search_eq_some hd
  have hshortest : shortest tie bits = strip (digitCount d.digits) d := by
    unfold shortest
    simp only [← hf, hd, Option.getD_some]
  rw [hshortest]
  constructor
  · rw [toDouble_congr (value_strip _ d)]
    exact (neighbour?_eq_some hfound).1
  · calc (strip (digitCount d.digits) d).digits ≤ d.digits := strip_digits_le _ d
      _ ≤ 10 ^ j := neighbour?_digits_le hplace hfound
      _ ≤ 10 ^ 17 := Nat.pow_le_pow_right (by decide) (by omega)

theorem shortest_digits_pos (tie : Tie) (hpos : 0 < bits) (hfinite : bits < infinity) :
    0 < (shortest tie bits).digits := by
  have hread := (shortest_spec tie hpos hfinite).1
  rcases Nat.eq_zero_or_pos (shortest tie bits).digits with hzero | hdigits
  · simp only [toDouble, hzero, if_true] at hread
    omega
  · exact hdigits

/-! Scaled decimals -/

theorem value_digits (n : Nat) : (Fraction.mk n 1).value = n := by simp [Fraction.value]

theorem nearest_digits_le {n : Nat} (h : n < UInt64.size) :
    nearest ⟨n, 1⟩ ≤ exponentWeight + 1086 * exponentWeight := by
  apply nearest_le one_pos
  have hle : (n : ℚ) ≤ (2 ^ 64 : ℕ) := by exact_mod_cast h.le
  rw [value_digits, value_power]
  refine hle.trans (le_of_eq ?_)
  norm_num

theorem le_powerOfTen (power : Nat) : exponentWeight + 1022 * exponentWeight ≤ powerOfTen power := by
  apply le_nearest (by decide) one_pos
  rw [value_digits, value_power]
  norm_num
  exact_mod_cast Nat.one_le_pow _ _ (by decide)

theorem one_le_value_powerOfTen (power : Nat) :
    1 ≤ (Number.toFraction (powerOfTen power)).value := by
  have hmono := value_mono (le_powerOfTen power)
  rw [value_power] at hmono
  norm_num at hmono
  exact hmono

theorem quotient_powerOfTen_le {a c : Nat} (power : Nat) (ha : a ≤ c) :
    quotient a (powerOfTen power) ≤ c := by
  have hdivisor : 0 < powerOfTen power := lt_of_lt_of_le (by decide) (le_powerOfTen power)
  apply nearest_le (Nat.mul_pos (Number.toFraction_den_pos a) (Number.toFraction_num_pos hdivisor))
  rw [Fraction.value_div]
  have hquotient := div_le_self (Fraction.value_nonneg (Number.toFraction a))
    (one_le_value_powerOfTen power)
  exact hquotient.trans (value_mono ha)

theorem scaled_lt_of_neg {d : Decimal} (hdigits : d.digits < UInt64.size) (hpower : d.power < 0) :
    d.scaled < infinity := by
  have hle := nearest_digits_le hdigits
  suffices h : d.scaled ≤ exponentWeight + 1086 * exponentWeight from lt_of_le_of_lt h (by decide)
  unfold scaled
  simp only [hpower, if_true]
  split
  · exact quotient_powerOfTen_le _ hle
  · exact quotient_powerOfTen_le _ (quotient_powerOfTen_le _ hle)

theorem ten_pow_mono {a b : Nat} (h : a ≤ b) : Nat.pow 10 a ≤ Nat.pow 10 b :=
  Nat.pow_le_pow_right (by decide) h

theorem powerOfTen_lt_infinity {power : Nat} (h : power ≤ largestPower) :
    powerOfTen power < infinity := by
  -- the largest power is below three halves of the largest power of two
  have hbits : 3 * 2 ^ 51 + 2045 * exponentWeight < infinity := by decide
  refine lt_of_le_of_lt (nearest_le one_pos ?_) hbits
  have hmax : Nat.pow 10 largestPower ≤ 3 * 2 ^ 51 * 2 ^ 971 := by decide +kernel
  have hle : Nat.pow 10 power ≤ 3 * 2 ^ 51 * 2 ^ 971 := (ten_pow_mono h).trans hmax
  have hgap : gap 2045 = (2 ^ 971 : ℕ) := by
    rw [gap, Nat.cast_pow, ← zpow_natCast]
    congr 1
  rw [value_digits, value_count (by decide) (by decide), hgap, ← Nat.cast_mul]
  exact Nat.cast_le.mpr hle

theorem product_nearest_lt {f g : Fraction} {k : Nat} (hf : 0 < f.den) (hg : 0 < g.den)
    (hfOne : 1 ≤ f.value) (hgOne : 1 ≤ g.value) (hfFinite : nearest f < infinity)
    (hgFinite : nearest g < infinity) (h : f.value * g.value < (2 * exponentWeight - 3) * gap k) :
    product (nearest f) (nearest g) < 2 * exponentWeight + k * exponentWeight := by
  apply nearest_lt (Nat.mul_pos (Number.toFraction_den_pos _) (Number.toFraction_den_pos _))
  rw [Fraction.value_mul]
  have hgap := gap_pos k
  have hweight : (exponentWeight : ℚ) = 4503599627370496 := by norm_num [exponentWeight]
  calc (Number.toFraction (nearest f)).value * (Number.toFraction (nearest g)).value
      ≤ (f.value * (1 + 1 / (2 * exponentWeight))) * (g.value * (1 + 1 / (2 * exponentWeight))) := by
        have hfLe := value_nearest_le hf hfOne hfFinite
        have hgLe := value_nearest_le hg hgOne hgFinite
        have hnonneg := Fraction.value_nonneg (Number.toFraction (nearest g))
        gcongr
    _ = f.value * g.value * (1 + 1 / (2 * exponentWeight)) ^ 2 := by ring
    _ ≤ (2 * exponentWeight - 3) * gap k * (1 + 1 / (2 * exponentWeight)) ^ 2 := by gcongr
    _ < (2 * exponentWeight - 1 / 2) * gap k := by
        rw [hweight]
        nlinarith

variable {d : Decimal}

theorem power_le_of_toDouble_lt (hdigits : d.digits ≠ 0) (h : d.toDouble < infinity) :
    d.power ≤ largestPower := by
  by_contra hlarge
  have hten : 2 ^ 1024 ≤ Nat.pow 10 (largestPower + 1) := by decide +kernel
  have hten : ((2 ^ 1024 : ℕ) : ℚ) ≤ (Nat.pow 10 (largestPower + 1) : ℕ) := Nat.cast_le.mpr hten
  have hone : (1 : ℚ) ≤ d.digits := by exact_mod_cast Nat.pos_of_ne_zero hdigits
  have hbits : infinity = exponentWeight + 2046 * exponentWeight := by decide
  have hinfinity : (Number.toFraction infinity).value = (2 ^ 1024 : ℕ) := by
    rw [hbits, value_power, Nat.cast_pow, ← zpow_natCast]
    congr 1
  have hle : infinity ≤ nearest d.toFraction := by
    apply le_nearest le_rfl d.toFraction_den_pos
    rw [hinfinity, value_toFraction]
    calc ((2 ^ 1024 : ℕ) : ℚ) ≤ (Nat.pow 10 (largestPower + 1) : ℕ) := hten
      _ = 10 ^ (largestPower + 1 : ℤ) := by
          rw [Nat.pow_eq, Nat.cast_pow, ← zpow_natCast, Nat.cast_ofNat, Nat.cast_succ]
      _ ≤ 10 ^ d.power := zpow_le_zpow_right₀ (by norm_num) (by omega)
      _ ≤ d.value := le_mul_of_one_le_left (by positivity) hone
  rw [toDouble_eq] at h
  omega

theorem value_lt_of_toDouble_lt (h : d.toDouble + 3 < infinity) :
    d.value < (2 * exponentWeight - 3) * gap 2045 := by
  by_contra hlarge
  have hle : 2 * exponentWeight - 3 + 2045 * exponentWeight ≤ nearest d.toFraction := by
    apply le_nearest (by decide) d.toFraction_den_pos
    rw [value_count (by decide) (by decide), value_toFraction]
    refine le_trans (le_of_eq ?_) (not_lt.mp hlarge)
    rw [Nat.cast_sub (by decide)]
    push_cast
    rfl
  rw [toDouble_eq] at h
  unfold infinity exponentWeight at *
  omega

/-- Rounding the digits and the power first makes a difference, but not one of three gaps. -/
theorem scaled_lt_of_toDouble_lt (hpos : 0 < d.digits) (hdigits : d.digits < UInt64.size)
    (h : d.toDouble + 3 < infinity) : d.scaled < infinity := by
  by_cases hneg : d.power < 0
  · exact scaled_lt_of_neg hdigits hneg
  obtain ⟨power, hpower⟩ := Int.eq_ofNat_of_zero_le (not_lt.mp hneg)
  have hmax : power ≤ largestPower := by
    have hle := power_le_of_toDouble_lt hpos.ne' (by omega)
    omega
  have hvalue : d.digits * ((Nat.pow 10 power : ℕ) : ℚ) = d.value := by
    rw [value, hpower, zpow_natCast, Nat.pow_eq, Nat.cast_pow, Nat.cast_ofNat]
  have hscaled : d.scaled = product (nearest ⟨d.digits, 1⟩) (powerOfTen power) := by
    unfold scaled
    simp [hpower, hmax]
  rw [hscaled, powerOfTen]
  refine product_nearest_lt (k := 2045) one_pos one_pos ?_ ?_ ?_ (powerOfTen_lt_infinity hmax) ?_
  · rw [value_digits]
    exact_mod_cast hpos
  · rw [value_digits]
    exact_mod_cast Nat.one_le_pow power 10 (by decide)
  · exact lt_of_le_of_lt (nearest_digits_le hdigits) (by decide)
  · rw [value_digits, value_digits, hvalue]
    exact value_lt_of_toDouble_lt h

/-- The shortest decimal of a finite double stays in range when it is scaled. -/
theorem scaled_shortest_lt (tie : Tie) (hpos : 0 < bits) (hfinite : bits < infinity) :
    (shortest tie bits).scaled < infinity := by
  obtain ⟨hread, hdigits⟩ := shortest_spec tie hpos hfinite
  by_cases hlast : bits + 3 < infinity
  · apply scaled_lt_of_toDouble_lt (shortest_digits_pos tie hpos hfinite)
      (lt_of_le_of_lt hdigits (by decide))
    rwa [hread]
  · -- the three doubles next to infinity
    have hcases : bits = 0x7fefffffffffffff ∨ bits = 0x7feffffffffffffe ∨
        bits = 0x7feffffffffffffd := by
      unfold infinity exponentWeight at *
      omega
    rcases hcases with rfl | rfl | rfl <;> cases tie <;> decide +kernel

theorem value_powerOfTen {power : Nat} (h : power ≤ 22) :
    (Number.toFraction (powerOfTen power)).value = 10 ^ power := by
  have hsplit : Nat.pow 10 power = 5 ^ power * 2 ^ power := by
    rw [← mul_pow]
    rfl
  have hfive : 5 ^ power < 2 * exponentWeight :=
    lt_of_le_of_lt (Nat.pow_le_pow_right (by decide) h) (by decide)
  unfold powerOfTen
  rw [hsplit, value_nearest_mul_pow hfive (by omega), ← hsplit]
  exact_mod_cast rfl

/-- There is one rounding if the digits and the power of ten are both doubles. -/
theorem scaled_eq_toDouble {d : Decimal} (hdigits : d.digits < 2 ^ 53) (hpower : d.power.natAbs ≤ 22) :
    d.scaled = d.toDouble := by
  have hvalue : (Number.toFraction (nearest ⟨d.digits, 1⟩)).value = d.digits := by
    have hexact := value_nearest_mul_pow (k := 0) hdigits (by decide)
    rwa [pow_zero, mul_one] at hexact
  have hten := value_powerOfTen hpower
  have hlarge : d.power.natAbs ≤ largestPower := hpower.trans (by decide)
  have hdivisor : 0 < powerOfTen d.power.natAbs := lt_of_lt_of_le (by decide) (le_powerOfTen _)
  rw [toDouble_eq]
  unfold scaled
  simp only [if_pos hlarge]
  split
  next hneg =>
    apply nearest_congr (Nat.mul_pos (Number.toFraction_den_pos _)
      (Number.toFraction_num_pos hdivisor)) d.toFraction_den_pos
    rw [Fraction.value_div, hvalue, hten, value_toFraction, value, div_eq_mul_inv, ← zpow_natCast,
      ← zpow_neg]
    congr 2
    omega
  next hpos =>
    apply nearest_congr (Nat.mul_pos (Number.toFraction_den_pos _) (Number.toFraction_den_pos _))
      d.toFraction_den_pos
    rw [Fraction.value_mul, hvalue, hten, value_toFraction, value, ← zpow_natCast]
    congr 2
    omega

end Decimal

end Reckoner.Number

import Mathlib.Algebra.Order.Field.Power
import Mathlib.Data.Nat.Cast.Order.Field
import Mathlib.Data.Rat.Cast.Order
import Mathlib.Tactic.FieldSimp
import Mathlib.Tactic.Linarith
import Mathlib.Tactic.Positivity
import Mathlib.Tactic.Ring
import Reckoner.Number.Double

/-! Rounding to doubles as a map from rational numbers. The doubles with the same stored exponent are
multiples of one gap, and rounding picks the nearest multiple. From that it follows that rounding is
monotone, that it leaves doubles as they are, and how far it can go. -/

namespace Reckoner.Number

namespace Fraction

def value (f : Fraction) : ℚ := f.num / f.den

variable {f g : Fraction}

theorem value_nonneg (f : Fraction) : 0 ≤ f.value := by
  unfold value
  positivity

theorem value_eq_zero_iff (hden : 0 < f.den) : f.value = 0 ↔ f.num = 0 := by
  unfold value
  rw [div_eq_zero_iff, or_iff_left (by positivity), Nat.cast_eq_zero]

theorem scale_den_pos {base : Nat} (hden : 0 < f.den) (hbase : 0 < base) (power : Int) :
    0 < (f.scale base power).den :=
  Nat.mul_pos hden (Nat.pow_pos hbase)

theorem value_scale (f : Fraction) {base : Nat} (hbase : 0 < base) (power : Int) :
    (f.scale base power).value = f.value * (base : ℚ) ^ power := by
  have hne : (base : ℚ) ≠ 0 := by positivity
  obtain ⟨n, rfl | rfl⟩ := power.eq_nat_or_neg
  · simp [value, scale]
    ring
  · simp [value, scale]
    field_simp

theorem value_scale_neg_mul (f : Fraction) {base : Nat} (hbase : 0 < base) (power : Int) :
    (f.scale base (-power)).value * (base : ℚ) ^ power = f.value := by
  have hne : (base : ℚ) ≠ 0 := by positivity
  rw [value_scale f hbase, mul_assoc, ← zpow_add₀ hne, neg_add_cancel, zpow_zero, mul_one]

theorem value_mul (f g : Fraction) : (f.mul g).value = f.value * g.value := by
  simp only [value, mul, Nat.cast_mul]
  ring

theorem value_div (f g : Fraction) : (f.div g).value = f.value / g.value := by
  simp only [value, div, Nat.cast_mul, div_div_div_eq]

theorem floor_le (f : Fraction) : (f.floor : ℚ) ≤ f.value := Nat.cast_div_le

theorem lt_floor_succ (hden : 0 < f.den) : f.value < f.floor + 1 := by
  unfold floor value
  rw [div_lt_iff₀ (by positivity), mul_comm]
  exact_mod_cast Nat.lt_mul_div_succ f.num hden

/-- Twice the distance to the rounded number is at most one, in integers, and less for an odd one. -/
theorem round_bounds (hden : 0 < f.den) :
    2 * f.num ≤ (2 * f.round + 1) * f.den ∧ 2 * f.round * f.den ≤ 2 * f.num + f.den ∧
      (f.round % 2 = 1 →
        2 * f.num < (2 * f.round + 1) * f.den ∧ 2 * f.round * f.den < 2 * f.num + f.den) := by
  have hdiv := Nat.div_add_mod f.num f.den
  have hmod := Nat.mod_lt f.num hden
  unfold round
  simp only
  generalize f.num / f.den = whole at *
  generalize f.num % f.den = rest at *
  rw [← hdiv]
  split
  · refine ⟨by linarith, by linarith, fun _ => ⟨by linarith, by linarith⟩⟩
  · split
    · rcases Nat.mod_two_eq_zero_or_one whole with heven | hodd
      · rw [heven]
        exact ⟨by linarith, by linarith, by omega⟩
      · rw [hodd]
        exact ⟨by linarith, by linarith, by omega⟩
    · have hlt : f.den < 2 * rest := by omega
      exact ⟨by linarith, by linarith, fun _ => ⟨by linarith, by linarith⟩⟩

theorem num_eq (hden : 0 < f.den) : (f.num : ℚ) = f.value * f.den := by
  have hpos : (0 : ℚ) < f.den := by exact_mod_cast hden
  exact (div_mul_cancel₀ _ hpos.ne').symm

theorem round_near (hden : 0 < f.den) : |(f.round : ℚ) - f.value| ≤ 1 / 2 := by
  have hpos : (0 : ℚ) < f.den := by exact_mod_cast hden
  obtain ⟨hlow, hhigh, -⟩ := round_bounds hden
  have hlow : (2 * f.num : ℚ) ≤ (2 * f.round + 1) * f.den := by exact_mod_cast hlow
  have hhigh : (2 * f.round * f.den : ℚ) ≤ 2 * f.num + f.den := by exact_mod_cast hhigh
  rw [num_eq hden] at hlow hhigh
  rw [abs_le]
  constructor <;> nlinarith

theorem round_odd (hden : 0 < f.den) (hodd : f.round % 2 = 1) :
    |(f.round : ℚ) - f.value| < 1 / 2 := by
  have hpos : (0 : ℚ) < f.den := by exact_mod_cast hden
  obtain ⟨hlow, hhigh⟩ := (round_bounds hden).2.2 hodd
  have hlow : (2 * f.num : ℚ) < (2 * f.round + 1) * f.den := by exact_mod_cast hlow
  have hhigh : (2 * f.round * f.den : ℚ) < 2 * f.num + f.den := by exact_mod_cast hhigh
  rw [num_eq hden] at hlow hhigh
  rw [abs_lt]
  constructor <;> nlinarith

theorem log2_bounds (hnum : 0 < f.num) (hden : 0 < f.den) :
    (2 : ℚ) ^ f.log2 ≤ f.value ∧ f.value < 2 ^ (f.log2 + 1) := by
  have hpos : (0 : ℚ) < f.den := by exact_mod_cast hden
  have hnumLow : (2 : ℚ) ^ f.num.log2 ≤ f.num := by exact_mod_cast Nat.log2_self_le hnum.ne'
  have hnumHigh : (f.num : ℚ) < 2 ^ (f.num.log2 + 1) := by exact_mod_cast Nat.lt_log2_self
  have hdenLow : (2 : ℚ) ^ f.den.log2 ≤ f.den := by exact_mod_cast Nat.log2_self_le hden.ne'
  have hdenHigh : (f.den : ℚ) < 2 ^ (f.den.log2 + 1) := by exact_mod_cast Nat.lt_log2_self
  set guess : ℤ := f.num.log2 - f.den.log2 with hguess
  have hlow : (2 : ℚ) ^ (guess - 1) ≤ f.value := by
    unfold value
    rw [le_div_iff₀ hpos]
    calc (2 : ℚ) ^ (guess - 1) * f.den
        ≤ 2 ^ (guess - 1) * 2 ^ (f.den.log2 + 1) := by gcongr
      _ = 2 ^ f.num.log2 := by
        rw [← zpow_natCast, ← zpow_natCast, ← zpow_add₀ two_ne_zero]
        congr 1
        omega
      _ ≤ f.num := hnumLow
  have hhigh : f.value < 2 ^ (guess + 1) := by
    unfold value
    rw [div_lt_iff₀ hpos]
    calc (f.num : ℚ) < 2 ^ (f.num.log2 + 1) := hnumHigh
      _ = 2 ^ (guess + 1) * 2 ^ f.den.log2 := by
        rw [← zpow_natCast, ← zpow_natCast, ← zpow_add₀ two_ne_zero]
        congr 1
        omega
      _ ≤ 2 ^ (guess + 1) * f.den := by gcongr
  have hscaled : (f.scale 2 (-guess)).value * 2 ^ guess = f.value :=
    f.value_scale_neg_mul two_pos guess
  have hunit : (0 : ℚ) < 2 ^ guess := by positivity
  unfold log2
  simp only [← hguess]
  split
  next hzero =>
    have hlt := lt_floor_succ (scale_den_pos (f := f) hden two_pos (-guess))
    rw [hzero, Nat.cast_zero, zero_add] at hlt
    refine ⟨hlow, ?_⟩
    rw [sub_add_cancel]
    nlinarith
  next hone =>
    have hle := floor_le (f.scale 2 (-guess))
    have hge : (1 : ℚ) ≤ (f.scale 2 (-guess)).floor := by exact_mod_cast Nat.pos_of_ne_zero hone
    refine ⟨?_, hhigh⟩
    nlinarith

end Fraction

/-! Gaps -/

/-- The distance of neighbouring doubles, `2 ^ (step - 1074)`, for each stored exponent. The doubles
below all others have the gap of step 0, as those next to them have. -/
def gap (step : Nat) : ℚ := 2 ^ (step - 1074 : ℤ)

theorem gap_pos (step : Nat) : 0 < gap step := by
  unfold gap
  positivity

theorem gap_succ (step : Nat) : gap (step + 1) = 2 * gap step := by
  unfold gap
  rw [← zpow_one_add₀ two_ne_zero]
  congr 1
  push_cast
  ring

theorem two_mul_gap_le {j k : Nat} (h : j < k) : 2 * gap j ≤ gap k := by
  rw [← gap_succ]
  unfold gap
  apply zpow_le_zpow_right₀ one_le_two
  omega

/-- The step of a double: its stored exponent, less one unless it is zero. -/
def step (bits : Nat) : Nat := bits / exponentWeight - 1

theorem mantissa_add_step (bits : Nat) : mantissa bits + step bits * exponentWeight = bits := by
  unfold mantissa step exponentWeight
  split <;> omega

theorem mantissa_lt (bits : Nat) : mantissa bits < 2 * exponentWeight := by
  unfold mantissa exponentWeight
  split <;> omega

theorem mantissa_pos {bits : Nat} (h : 0 < bits) : 0 < mantissa bits := by
  unfold mantissa exponentWeight
  split <;> omega

theorem step_eq_zero_or (bits : Nat) : step bits = 0 ∨ exponentWeight ≤ mantissa bits := by
  unfold mantissa step exponentWeight
  split <;> omega

theorem value_toFraction (bits : Nat) :
    (toFraction bits).value = mantissa bits * gap (step bits) := by
  have hexponent : exponent bits = (step bits : ℤ) - 1074 := by
    unfold exponent step exponentWeight
    omega
  unfold toFraction gap
  rw [Fraction.value_scale _ two_pos, hexponent]
  simp [Fraction.value]

theorem toFraction_den_pos (bits : Nat) : 0 < (toFraction bits).den :=
  Fraction.scale_den_pos one_pos two_pos _

theorem toFraction_num_pos {bits : Nat} (h : 0 < bits) : 0 < (toFraction bits).num :=
  Nat.mul_pos (mantissa_pos h) (Nat.pow_pos two_pos)

/-- A count of gaps gives the bits, also where it just reaches the next step. -/
theorem value_count {n k : Nat} (hn : n ≤ 2 * exponentWeight) (hk : k = 0 ∨ exponentWeight ≤ n) :
    (toFraction (n + k * exponentWeight)).value = n * gap k := by
  rw [value_toFraction]
  by_cases hlast : n = 2 * exponentWeight
  · have hmantissa : mantissa (n + k * exponentWeight) = exponentWeight := by
      rw [hlast]
      unfold mantissa exponentWeight
      split <;> omega
    have hstep : step (n + k * exponentWeight) = k + 1 := by
      rw [hlast]
      unfold step exponentWeight
      omega
    rw [hmantissa, hstep, gap_succ, hlast]
    push_cast
    ring
  · have hmantissa : mantissa (n + k * exponentWeight) = n := by
      unfold mantissa exponentWeight at *
      split <;> omega
    have hstep : step (n + k * exponentWeight) = k := by
      unfold step exponentWeight at *
      omega
    rw [hmantissa, hstep]

theorem weight_mul_gap (k : Nat) : exponentWeight * gap k = 2 ^ (k - 1022 : ℤ) := by
  have hweight : (exponentWeight : ℚ) = 2 ^ (52 : ℤ) := by
    unfold exponentWeight
    norm_num
  rw [hweight, gap, ← zpow_add₀ two_ne_zero]
  congr 1
  ring

/-- The powers of two are the doubles whose stored fraction is zero. -/
theorem value_power (k : Nat) :
    (toFraction (exponentWeight + k * exponentWeight)).value = 2 ^ (k - 1022 : ℤ) := by
  rw [value_count (by omega) (.inr le_rfl), weight_mul_gap]

theorem value_mono {a b : Nat} (h : a ≤ b) : (toFraction a).value ≤ (toFraction b).value := by
  rw [value_toFraction, value_toFraction]
  have ha := mantissa_add_step a
  have hb := mantissa_add_step b
  have hlt : (mantissa a : ℚ) < 2 * exponentWeight := by exact_mod_cast mantissa_lt a
  rcases Nat.lt_trichotomy (step a) (step b) with hstep | hstep | hstep
  · have hfull : (exponentWeight : ℚ) ≤ mantissa b := by
      have hor := step_eq_zero_or b
      exact_mod_cast hor.resolve_left (by omega)
    have hgap := two_mul_gap_le hstep
    have hpos := gap_pos (step a)
    calc (mantissa a : ℚ) * gap (step a) ≤ exponentWeight * (2 * gap (step a)) := by nlinarith
      _ ≤ exponentWeight * gap (step b) := by gcongr
      _ ≤ mantissa b * gap (step b) := by
        have hpos := gap_pos (step b)
        gcongr
  · have hle : (mantissa a : ℚ) ≤ mantissa b := by
      have : mantissa a ≤ mantissa b := by
        rw [hstep] at ha
        omega
      exact_mod_cast this
    have hpos := gap_pos (step b)
    rw [hstep]
    gcongr
  · have hfull := (step_eq_zero_or a).resolve_left (by omega)
    have hsmall := mantissa_lt b
    have hmul : (step b + 1) * exponentWeight ≤ step a * exponentWeight :=
      Nat.mul_le_mul_right _ hstep
    unfold exponentWeight at *
    omega

/-! Rounding -/

/-- The number lies among the doubles of a step, and `n` of their gaps are nearest to it. Half-way
between two counts the even one is taken. -/
structure Rounds (v : ℚ) (n k : Nat) : Prop where
  lower : k = 0 ∨ exponentWeight * gap k ≤ v
  upper : v < 2 * exponentWeight * gap k
  near : |n * gap k - v| ≤ gap k / 2
  odd : n % 2 = 1 → |n * gap k - v| < gap k / 2

namespace Rounds

variable {v : ℚ} {n k : Nat}

theorem count_le (h : Rounds v n k) : n ≤ 2 * exponentWeight := by
  have hpos := gap_pos k
  have hnear := (abs_le.mp h.near).2
  have hupper := h.upper
  have hlt : (n : ℚ) < 2 * exponentWeight + 1 := by nlinarith
  have hlt : n < 2 * exponentWeight + 1 := by exact_mod_cast hlt
  omega

theorem le_count (h : Rounds v n k) : k = 0 ∨ exponentWeight ≤ n := by
  rcases h.lower with hzero | hlower
  · exact .inl hzero
  · have hpos := gap_pos k
    have hnear := (abs_le.mp h.near).1
    have hlt : (exponentWeight : ℚ) < n + 1 := by nlinarith
    have hlt : exponentWeight < n + 1 := by exact_mod_cast hlt
    omega

theorem value_eq (h : Rounds v n k) :
    (toFraction (n + k * exponentWeight)).value = n * gap k :=
  value_count h.count_le h.le_count

theorem step_eq (h : Rounds v n k) {j : Nat} (hlower : j = 0 ∨ exponentWeight * gap j ≤ v)
    (hupper : v < 2 * exponentWeight * gap j) : k = j := by
  have hweight : (0 : ℚ) < exponentWeight := by simp [exponentWeight]
  rcases Nat.lt_trichotomy k j with hlt | heq | hgt
  · have hgap := two_mul_gap_le hlt
    have hle := hlower.resolve_left (by omega)
    have hupper := h.upper
    nlinarith
  · exact heq
  · have hgap := two_mul_gap_le hgt
    have hle := h.lower.resolve_left (by omega)
    nlinarith

theorem count_eq (h : Rounds v n k) {m : Nat} (hm : |m * gap k - v| < gap k / 2) : n = m := by
  have hpos := gap_pos k
  have hnear := abs_le.mp h.near
  have hm := abs_lt.mp hm
  have hlt : (n : ℚ) < m + 1 := by nlinarith
  have hgt : (m : ℚ) < n + 1 := by nlinarith
  have hlt : n < m + 1 := by exact_mod_cast hlt
  have hgt : m < n + 1 := by exact_mod_cast hgt
  omega

theorem unique (h : Rounds v n k) {m j : Nat} (h' : Rounds v m j) : n = m ∧ k = j := by
  obtain rfl := h.step_eq h'.lower h'.upper
  refine ⟨?_, rfl⟩
  rcases Nat.mod_two_eq_zero_or_one m with heven | hodd
  · rcases Nat.mod_two_eq_zero_or_one n with heven' | hodd'
    · have hpos := gap_pos k
      have hnear := abs_le.mp h.near
      have hnear' := abs_le.mp h'.near
      have hlt : (n : ℚ) < m + 2 := by nlinarith
      have hgt : (m : ℚ) < n + 2 := by nlinarith
      have hlt : n < m + 2 := by exact_mod_cast hlt
      have hgt : m < n + 2 := by exact_mod_cast hgt
      omega
    · exact (h'.count_eq (h.odd hodd')).symm
  · exact h.count_eq (h'.odd hodd)

end Rounds

variable {f : Fraction}

theorem exists_rounds (hnum : 0 < f.num) (hden : 0 < f.den) :
    ∃ n k, Rounds f.value n k ∧ nearest f = min (n + k * exponentWeight) infinity := by
  obtain ⟨hlow, hhigh⟩ := Fraction.log2_bounds hnum hden
  set unit : ℤ := max (f.log2 - 52) (-1074) with hunit
  obtain ⟨k, hk⟩ : ∃ k : ℕ, unit = (k : ℤ) - 1074 := ⟨(unit + 1074).toNat, by omega⟩
  have hgap : gap k = 2 ^ unit := by rw [gap, hk]
  have hscaled : (f.scale 2 (-unit)).value * gap k = f.value := by
    rw [hgap]
    exact f.value_scale_neg_mul two_pos unit
  have hpos := gap_pos k
  have hscaledDen := Fraction.scale_den_pos (f := f) hden two_pos (-unit)
  have hround := Fraction.round_near hscaledDen
  refine ⟨(f.scale 2 (-unit)).round, k, ⟨?_, ?_, ?_, ?_⟩, ?_⟩
  · rcases Nat.eq_zero_or_pos k with hzero | hk
    · exact .inl hzero
    · refine .inr (le_trans (le_of_eq ?_) hlow)
      rw [weight_mul_gap]
      congr 1
      omega
  · refine lt_of_lt_of_le hhigh ?_
    rw [mul_assoc, weight_mul_gap, ← zpow_one_add₀ two_ne_zero]
    apply zpow_le_zpow_right₀ one_le_two
    omega
  · rw [← hscaled, ← sub_mul, abs_mul, abs_of_pos hpos]
    nlinarith
  · intro hodd
    have hstrict := Fraction.round_odd hscaledDen hodd
    rw [← hscaled, ← sub_mul, abs_mul, abs_of_pos hpos]
    nlinarith
  · unfold nearest
    have hcount : (unit + 1074).toNat = k := by omega
    rw [if_neg hnum.ne', ← hcount]

theorem nearest_le_infinity (f : Fraction) : nearest f ≤ infinity := by
  unfold nearest
  split
  · exact Nat.zero_le _
  · exact Nat.min_le_right _ _

theorem le_nearest {c : Nat} (hc : c ≤ infinity) (hden : 0 < f.den)
    (h : (toFraction c).value ≤ f.value) : c ≤ nearest f := by
  rcases Nat.eq_zero_or_pos f.num with hzero | hnum
  · rw [(Fraction.value_eq_zero_iff hden).mpr hzero, value_toFraction] at h
    have hpos := gap_pos (step c)
    have hmantissa : (mantissa c : ℚ) ≤ 0 := by nlinarith
    have hmantissa : mantissa c = 0 := by exact_mod_cast le_antisymm hmantissa (by positivity)
    have hsum := mantissa_add_step c
    rcases step_eq_zero_or c with hstep | hfull
    · rw [hmantissa, hstep] at hsum
      omega
    · rw [hmantissa] at hfull
      exact absurd hfull (by decide)
  obtain ⟨n, k, hrounds, hnearest⟩ := exists_rounds hnum hden
  rw [hnearest]
  refine le_min ?_ hc
  rw [value_toFraction] at h
  have hsum := mantissa_add_step c
  have hpos := gap_pos k
  rcases Nat.lt_trichotomy (step c) k with hlt | heq | hgt
  · have hfull := hrounds.le_count.resolve_left (by omega)
    have hmantissa := mantissa_lt c
    have hmul : (step c + 1) * exponentWeight ≤ k * exponentWeight := Nat.mul_le_mul_right _ hlt
    unfold exponentWeight at *
    omega
  · have hnear := (abs_le.mp hrounds.near).1
    rw [heq] at h hsum
    have hle : (mantissa c : ℚ) < n + 1 := by nlinarith
    have hle : mantissa c < n + 1 := by exact_mod_cast hle
    omega
  · have hfull := (step_eq_zero_or c).resolve_left (by omega)
    have hfull : (exponentWeight : ℚ) ≤ mantissa c := by exact_mod_cast hfull
    have hgap := two_mul_gap_le hgt
    have hupper := hrounds.upper
    have hweight : (0 : ℚ) < exponentWeight := by simp [exponentWeight]
    nlinarith

theorem nearest_le {c : Nat} (hden : 0 < f.den) (h : f.value ≤ (toFraction c).value) :
    nearest f ≤ c := by
  rcases Nat.eq_zero_or_pos f.num with hzero | hnum
  · simp [nearest, hzero]
  obtain ⟨n, k, hrounds, hnearest⟩ := exists_rounds hnum hden
  rw [hnearest]
  refine le_trans (min_le_left _ _) ?_
  rw [value_toFraction] at h
  have hsum := mantissa_add_step c
  have hpos := gap_pos k
  rcases Nat.lt_trichotomy (step c) k with hlt | heq | hgt
  · have hlower := hrounds.lower.resolve_left (by omega)
    have hmantissa : (mantissa c : ℚ) < 2 * exponentWeight := by exact_mod_cast mantissa_lt c
    have hgap := two_mul_gap_le hlt
    have hsmall := gap_pos (step c)
    have hweight : (0 : ℚ) < exponentWeight := by simp [exponentWeight]
    nlinarith
  · have hnear := (abs_le.mp hrounds.near).2
    rw [heq] at h hsum
    have hle : (n : ℚ) < mantissa c + 1 := by nlinarith
    have hle : n < mantissa c + 1 := by exact_mod_cast hle
    omega
  · have hfull := (step_eq_zero_or c).resolve_left (by omega)
    have hcount := hrounds.count_le
    have hmul : (k + 1) * exponentWeight ≤ step c * exponentWeight := Nat.mul_le_mul_right _ hgt
    unfold exponentWeight at *
    omega

theorem nearest_toFraction {bits : Nat} (h : bits ≤ infinity) : nearest (toFraction bits) = bits :=
  le_antisymm (nearest_le (toFraction_den_pos bits) le_rfl)
    (le_nearest h (toFraction_den_pos bits) le_rfl)

/-- How a number is written as a fraction makes no difference. -/
theorem nearest_congr {g : Fraction} (hf : 0 < f.den) (hg : 0 < g.den) (h : f.value = g.value) :
    nearest f = nearest g := by
  have hzero : f.num = 0 ↔ g.num = 0 := by
    rw [← Fraction.value_eq_zero_iff hf, h, Fraction.value_eq_zero_iff hg]
  by_cases hnum : f.num = 0
  · simp [nearest, hnum, hzero.mp hnum]
  · obtain ⟨n, k, hrounds, hnearest⟩ := exists_rounds (Nat.pos_of_ne_zero hnum) hf
    obtain ⟨m, j, hrounds', hnearest'⟩ :=
      exists_rounds (Nat.pos_of_ne_zero fun hg => hnum (hzero.mpr hg)) hg
    rw [h] at hrounds
    obtain ⟨rfl, rfl⟩ := hrounds.unique hrounds'
    rw [hnearest, hnearest']

/-- Numbers nearer to a double than half of its gap round to it. Below the least double of a step the
gap is only half as wide. -/
theorem nearest_eq_of_near {c : Nat} (hc : c ≤ infinity) (hnum : 0 < f.num) (hden : 0 < f.den)
    (hnear : |f.value - (toFraction c).value| < gap (step c) / 2)
    (hedge : mantissa c = exponentWeight → (toFraction c).value - gap (step c) / 4 < f.value) :
    nearest f = c := by
  obtain ⟨n, k, hrounds, hnearest⟩ := exists_rounds hnum hden
  rw [value_toFraction] at hnear hedge
  have hsum := mantissa_add_step c
  have hpos := gap_pos (step c)
  have hsmall : (mantissa c : ℚ) + 1 ≤ 2 * exponentWeight := by exact_mod_cast mantissa_lt c
  have hbounds := abs_lt.mp hnear
  have hupper : f.value < 2 * exponentWeight * gap (step c) := by nlinarith
  suffices hcount : n + k * exponentWeight = c by rw [hnearest, hcount, min_eq_left hc]
  by_cases hlower : step c = 0 ∨ exponentWeight * gap (step c) ≤ f.value
  · obtain rfl := hrounds.step_eq hlower hupper
    rw [abs_sub_comm] at hnear
    rw [hrounds.count_eq hnear, hsum]
  · -- the number is below the least double of its step, so it is counted in the gaps of the step before
    rw [not_or, not_le] at hlower
    obtain ⟨j, hj⟩ := Nat.exists_eq_succ_of_ne_zero hlower.1
    have hfull := (step_eq_zero_or c).resolve_left hlower.1
    have hleast : mantissa c = exponentWeight := by
      have hlt : (mantissa c : ℚ) < exponentWeight + 1 := by nlinarith
      have hlt : mantissa c < exponentWeight + 1 := by exact_mod_cast hlt
      omega
    have hedge := hedge hleast
    have hgap := gap_succ j
    have hjpos := gap_pos j
    have hone : (1 : ℚ) ≤ exponentWeight := by simp [exponentWeight]
    rw [Nat.succ_eq_add_one] at hj
    rw [hj, hgap, hleast] at hedge
    rw [hj, hgap] at hlower
    obtain rfl : k = j := hrounds.step_eq (.inr (by nlinarith)) (by linarith)
    have hcount : n = 2 * exponentWeight := by
      apply hrounds.count_eq
      rw [abs_lt]
      push_cast
      constructor <;> linarith
    rw [hleast, hj] at hsum
    rw [hcount, ← hsum]
    ring

/-- What stays away from the end of a step by more than half a gap rounds to a double below it. -/
theorem nearest_lt {top : Nat} (hden : 0 < f.den)
    (h : f.value < (2 * exponentWeight - 1 / 2) * gap top) :
    nearest f < 2 * exponentWeight + top * exponentWeight := by
  rcases Nat.eq_zero_or_pos f.num with hzero | hnum
  · simp [nearest, hzero, exponentWeight]
  obtain ⟨n, k, hrounds, hnearest⟩ := exists_rounds hnum hden
  have hcount := hrounds.count_le
  have hpos := gap_pos top
  rw [hnearest, min_lt_iff]
  left
  rcases Nat.lt_trichotomy k top with hlt | rfl | hgt
  · unfold exponentWeight at *
    omega
  · have hnear := (abs_le.mp hrounds.near).2
    have hlt : (n : ℚ) < 2 * exponentWeight := by nlinarith
    have hlt : n < 2 * exponentWeight := by exact_mod_cast hlt
    omega
  · have hlower := hrounds.lower.resolve_left (by omega)
    have hweight : (0 : ℚ) ≤ exponentWeight := by positivity
    have hgap := mul_le_mul_of_nonneg_left (two_mul_gap_le hgt) hweight
    linarith

/-- Rounding moves a number by at most half of a unit in the last of 53 places. -/
theorem value_nearest_le (hden : 0 < f.den) (hone : 1 ≤ f.value) (hfinite : nearest f < infinity) :
    (toFraction (nearest f)).value ≤ f.value * (1 + 1 / (2 * exponentWeight)) := by
  have hnum : 0 < f.num := by
    rcases Nat.eq_zero_or_pos f.num with hzero | hnum
    · simp [Fraction.value, hzero] at hone
      linarith
    · exact hnum
  obtain ⟨n, k, hrounds, hnearest⟩ := exists_rounds hnum hden
  have hbits : nearest f = n + k * exponentWeight := by omega
  have hweight : (0 : ℚ) < exponentWeight := by simp [exponentWeight]
  have hlower : exponentWeight * gap k ≤ f.value := by
    rcases hrounds.lower with rfl | hlower
    · have hupper := hrounds.upper
      have htiny : exponentWeight * gap 0 ≤ 2 ^ (-1 : ℤ) := by
        rw [weight_mul_gap]
        exact zpow_le_zpow_right₀ one_le_two (by omega)
      norm_num at htiny
      linarith
    · exact hlower
  have hnear := (abs_le.mp hrounds.near).2
  have hpos := gap_pos k
  rw [hbits, hrounds.value_eq]
  have hhalf : gap k / 2 ≤ f.value * (1 / (2 * exponentWeight)) := by
    rw [mul_one_div, le_div_iff₀ (by positivity)]
    linarith
  linarith

/-- A number of 53 bits before a few zeros is a double. -/
theorem value_nearest_mul_pow {n k : Nat} (hn : n < 2 * exponentWeight) (hk : k ≤ 900) :
    (toFraction (nearest ⟨n * 2 ^ k, 1⟩)).value = (n * 2 ^ k : ℕ) := by
  rcases Nat.eq_zero_or_pos n with rfl | hpos
  · have hnearest : nearest ⟨0 * 2 ^ k, 1⟩ = 0 := if_pos (zero_mul _)
    have hmantissa : mantissa 0 = 0 := rfl
    rw [hnearest, value_toFraction, hmantissa, zero_mul, Nat.cast_zero, zero_mul]
  have hlow := Nat.log2_self_le hpos.ne'
  have hhigh := Nat.lt_log2_self (n := n)
  have hlog : n.log2 ≤ 52 := by
    have hlt : n.log2 < 53 := (Nat.log2_lt hpos.ne').mpr hn
    omega
  obtain ⟨shift, hshift⟩ := Nat.exists_eq_add_of_le hlog
  have hweight : exponentWeight = 2 ^ n.log2 * 2 ^ shift := by
    rw [← pow_add, ← hshift]
    rfl
  have hcount : exponentWeight ≤ n * 2 ^ shift ∧ n * 2 ^ shift ≤ 2 * exponentWeight := by
    rw [pow_succ'] at hhigh
    have hle := Nat.mul_le_mul_right (2 ^ shift) hlow
    have hge := Nat.mul_le_mul_right (2 ^ shift) hhigh.le
    rw [mul_assoc] at hge
    omega
  have hvalue : (toFraction (n * 2 ^ shift + (1074 + k - shift) * exponentWeight)).value =
      (n * 2 ^ k : ℕ) := by
    have hgap : gap (1074 + k - shift) = 2 ^ k / 2 ^ shift := by
      rw [gap, ← zpow_natCast, ← zpow_natCast, ← zpow_sub₀ two_ne_zero]
      congr 1
      omega
    rw [value_count hcount.2 (.inr hcount.1), hgap]
    push_cast
    field_simp
  have hbits : n * 2 ^ shift + (1074 + k - shift) * exponentWeight ≤ infinity := by
    have hstep := Nat.mul_le_mul_right exponentWeight (show 1074 + k - shift ≤ 1974 by omega)
    unfold infinity
    omega
  have hnearest := nearest_congr (f := ⟨n * 2 ^ k, 1⟩) one_pos (toFraction_den_pos _)
    ((by simp [Fraction.value] : _ = ((n * 2 ^ k : ℕ) : ℚ)).trans hvalue.symm)
  rw [hnearest, nearest_toFraction hbits, hvalue]

end Reckoner.Number

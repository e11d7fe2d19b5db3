import PulseSequencer.Clock
import PulseSequencer.Proofs.Binary64.Quotient

/-!
# Rounding to ticks

How far the ticks of a duration are from the duration. Division by the tick is rounded to a number
before it is rounded to whole ticks, so a duration just below half a tick more may still be counted
up. For durations that one timestamp can hold, this moves the limit by less than 1/32 of a tick.

Results:
1. `Quantity.check_total`: a finite value in the range is accepted.
2. `Clock.ticks_spec`: the ticks of a duration are at most 17/32 of a tick away from it.
-/

namespace PulseSequencer

open Binary64

theorem Quantity.check_total (quantity : Quantity) {x : Binary64} (finite : x.isFinite = true)
    (within : Within quantity.low quantity.high x) :
    ∃ evidence, quantity.check x = .ok evidence :=
  ⟨⟨within⟩, by rw [check, if_pos finite, checkRange, dif_pos within]⟩

namespace Clock

theorem tick_pos : 0 < tick.steps := by decide +kernel

/-- The longest duration is closer to its ticks than to half a tick more. -/
theorem maxDuration_le : 32 * maxDuration.steps ≤ (32 * maxTicks + 15) * tick.steps := by
  decide +kernel

/-- `n / 32` of one second as a number of steps. -/
def secondParts (n : ℕ) : ℕ := n * 2 ^ 1069

theorem cast_secondParts (n : ℕ) : 32 * (secondParts n : ℤ) = n * 2 ^ 1074 := by
  have power : (2 : ℤ) ^ 1074 = 2 ^ 5 * 2 ^ 1069 := pow_add 2 5 1069
  rw [secondParts, Nat.cast_mul, Nat.cast_pow, Nat.cast_ofNat, power]
  generalize (2 : ℤ) ^ 1069 = part
  ring

theorem secondParts_mul (n : ℕ) (y : ℤ) : 32 * (secondParts n * y) = n * y * 2 ^ 1074 := by
  rw [← mul_assoc, cast_secondParts, mul_right_comm]

theorem representable_secondParts {n : ℕ} (small : n ≤ 2 ^ 53) : Representable (secondParts n) := by
  rw [secondParts, Nat.cast_mul, Nat.cast_pow, Nat.cast_ofNat]
  refine representable_of_dvd (k := 1069) (dvd_mul_left _ _) ?_
  rw [abs_mul, abs_of_pos (two_pow_pos 1069), pow_add, Nat.abs_cast]
  exact mul_le_mul_of_nonneg_right (by exact_mod_cast small) (two_pow_pos 1069).le

theorem secondParts_lt {n : ℕ} (small : n ≤ 2 ^ 53) : (secondParts n : ℤ) < 2 ^ overflow := by
  have le : (secondParts n : ℤ) ≤ 2 ^ (53 + 1069) := by
    rw [secondParts, Nat.cast_mul, Nat.cast_pow, Nat.cast_ofNat, pow_add]
    exact mul_le_mul_of_nonneg_right (by exact_mod_cast small) (two_pow_pos 1069).le
  exact le.trans_lt (two_pow_lt (by decide))

section

variable {x : Binary64} {n : ℕ}

/-- A duration of at most `n / 32` ticks is not rounded beyond that by the division. -/
theorem div_tick_le (positive : 0 < x.steps) (small : n ≤ 2 ^ 53)
    (le : 32 * x.steps ≤ n * tick.steps) :
    (x / tick).isFinite = true ∧ 0 ≤ (x / tick).steps ∧ 32 * (x / tick).steps ≤ n * 2 ^ 1074 := by
  have scaled := mul_le_mul_of_nonneg_right le (two_pow_pos 1074).le
  rw [← secondParts_mul, mul_assoc] at scaled
  obtain ⟨finite, nonneg, quotientLe⟩ := div_le positive tick_pos (representable_secondParts small)
    (secondParts_lt small) (le_of_mul_le_mul_left scaled (by norm_num))
  rw [← cast_secondParts]
  exact ⟨finite, nonneg, mul_le_mul_of_nonneg_left quotientLe (by norm_num)⟩

theorem le_div_tick (positive : 0 < x.steps) (small : n ≤ 2 ^ 53)
    (finite : (x / tick).isFinite = true) (le : n * tick.steps ≤ 32 * x.steps) :
    n * 2 ^ 1074 ≤ 32 * (x / tick).steps := by
  have scaled := mul_le_mul_of_nonneg_right le (two_pow_pos 1074).le
  rw [← secondParts_mul, mul_assoc] at scaled
  have leQuotient := le_div positive tick_pos (representable_secondParts small) finite
    (le_of_mul_le_mul_left scaled (by norm_num))
  rw [← cast_secondParts]
  exact mul_le_mul_of_nonneg_left leQuotient (by norm_num)

end

/-- The ticks that the rounded quotient stands for. -/
theorem round_div_tick {x : Binary64} (positive : 0 < x.steps)
    (le : x.steps ≤ maxDuration.steps) :
    ∃ k ≤ maxTicks, (x / tick).round.toNat? = some k ∧
      32 * |k * tick.steps - x.steps| ≤ 17 * tick.steps := by
  have limit : maxTicks = 2 ^ 48 - 1 := rfl
  have longest := maxDuration_le
  have tickPos := tick_pos
  have quotient_le {n : ℕ} := div_tick_le (n := n) positive
  obtain ⟨finite, nonneg, longestLe⟩ :=
    quotient_le (n := 32 * maxTicks + 15) (by omega) (by push_cast; omega)
  have le_quotient {n : ℕ} (small : n ≤ 2 ^ 53) := le_div_tick (n := n) positive small finite
  obtain ⟨k, found, low, high⟩ := toNat?_round finite nonneg
  have secondPos := two_pow_pos 1074
  generalize (2 : ℤ) ^ 1074 = second at *
  have fits : k ≤ maxTicks := by
    by_contra above
    have := mul_le_mul_of_nonneg_right (Int.ofNat_le.mpr (not_le.mp above)) secondPos.le
    push_cast at this longestLe
    linarith only [this, longestLe, low, secondPos]
  refine ⟨k, fits, found, ?_⟩
  -- A quotient that is 17/32 off would not have been rounded to `k`.
  rw [← abs_of_pos (show (0 : ℤ) < 32 by norm_num), ← abs_mul, abs_le]
  constructor
  · by_contra far
    have := le_quotient (n := 32 * k + 17) (by omega) (by push_cast; linarith)
    push_cast at this
    linarith only [this, high, secondPos]
  · by_contra far
    have nonzero : 0 < k := by
      by_contra zero
      rw [Nat.eq_zero_of_not_pos zero] at far
      push_cast at far
      linarith
    have cast : ((32 * k - 17 : ℕ) : ℤ) = 32 * k - 17 := by omega
    obtain ⟨_, _, this⟩ := quotient_le (n := 32 * k - 17) (by omega) (by rw [cast]; linarith)
    rw [cast] at this
    linarith only [this, low, secondPos]

/-- The ticks of a duration that a timestamp can hold. -/
theorem ticks_spec {x : Binary64} (within : Within 0 maxDuration x) :
    ∃ k ≤ maxTicks, ticks x = .ok k ∧ 32 * |k * tick.steps - x.steps| ≤ 17 * tick.steps := by
  have finiteMax : maxDuration.isFinite = true := by decide +kernel
  have finite := isFinite_of_within rfl finiteMax within
  have nonneg := (le_iff_steps rfl finite).mp within.1
  have le := (le_iff_steps finite finiteMax).mp within.2
  rcases nonneg.eq_or_lt with zero | positive
  · obtain ⟨negative, rfl⟩ := eq_signedZero_of_isZero ((isZero_iff_steps finite).mpr zero.symm)
    refine ⟨0, Nat.zero_le _, by cases negative <;> rfl, ?_⟩
    rw [← zero, Nat.cast_zero, zero_mul]
    exact mul_nonneg (by norm_num) tick_pos.le
  · obtain ⟨k, fits, found, near⟩ := round_div_tick positive le
    obtain ⟨evidence, ok⟩ := Quantity.check_total timeStep finite within
    refine ⟨k, fits, ?_, near⟩
    rw [ticks, ok, found]
    exact congrArg Except.ok (min_eq_left fits)

end Clock

end PulseSequencer

import PulseSequencer.Proofs.Duration.Expression
import PulseSequencer.Proofs.Duration.Search

/-!
# Divisions end

A division corrects a rounded quotient until the exact remainder is right, without a bound on the
number of corrections. Stated in exact seconds, for all durations and parts below `2 ^ 1000`
seconds: every such correction ends after one step at most, and what it reports is the division with
remainder of exact numbers.

Results:
1. `Correction.unique`: a correction has no choice.
2. `correction_ends`: it ends, in one direction, with the exact quotient and remainder.
-/

namespace PulseSequencer.Duration

open Binary64

/-- The exact sum that a duration holds, in seconds. -/
def exactSeconds (d : Duration) : ℚ := (d.partials.map rational).sum

theorem exactSeconds_eq (d : Duration) : d.exactSeconds = d.exactSteps / 2 ^ 1074 :=
  Expression.sum_rational d.partials

/-- Every candidate decides what comes next. -/
theorem Correction.unique {d part : Duration} {candidate : Binary64}
    {candidates others : List Binary64} {result other : Option (ℕ × Duration)}
    (first : Correction d part candidate candidates result)
    (second : Correction d part candidate others other) : candidates = others ∧ result = other := by
  induction first generalizing others other with
  | outside no =>
    cases second with
    | outside => exact ⟨rfl, rfl⟩
    | found within => exact absurd within no
    | lower within => exact absurd within no
    | raise within => exact absurd within no
  | found within verdict count =>
    cases second with
    | outside no => exact absurd within no
    | found _ verdict' count' =>
      cases verdict.symm.trans verdict'
      cases count.symm.trans count'
      exact ⟨rfl, rfl⟩
    | lower _ verdict' => cases verdict.symm.trans verdict'
    | raise _ verdict' => cases verdict.symm.trans verdict'
  | lower within verdict _ ih =>
    cases second with
    | outside no => exact absurd within no
    | found _ verdict' => cases verdict.symm.trans verdict'
    | lower _ _ later =>
      obtain ⟨same, sameResult⟩ := ih later
      exact ⟨congrArg _ same, sameResult⟩
    | raise _ verdict' => cases verdict.symm.trans verdict'
  | raise within verdict _ ih =>
    cases second with
    | outside no => exact absurd within no
    | found _ verdict' => cases verdict.symm.trans verdict'
    | lower _ verdict' => cases verdict.symm.trans verdict'
    | raise _ _ later =>
      obtain ⟨same, sameResult⟩ := ih later
      exact ⟨congrArg _ same, sameResult⟩

theorem le_safe_of_seconds {n : ℤ} (less : (n : ℚ) / 2 ^ 1074 < 2 ^ 1000) : n ≤ safe := by
  rw [div_lt_iff₀ (by positivity), ← pow_add] at less
  have whole : n < 2 ^ (1000 + 1074) := by
    rwa [← Int.cast_lt (R := ℚ), Int.cast_pow, Int.cast_ofNat]
  exact whole.le.trans (two_pow_le (by omega))

theorem divisible_of_seconds {d : Duration} {seconds : Binary64} (finite : d.Finite)
    (small : |d.exactSeconds| < 2 ^ 1000) (positive : 0 < seconds.rational)
    (bounded : seconds.rational < 2 ^ 1000) : Divisible d seconds := by
  have second : (0 : ℚ) < 2 ^ 1074 := by positivity
  rw [rational_eq] at positive bounded
  rw [exactSeconds_eq, abs_div, abs_of_pos second, ← Int.cast_abs] at small
  refine ⟨finite, ?_, le_safe_of_seconds small, le_safe_of_seconds bounded⟩
  exact_mod_cast (div_pos_iff_of_pos_right second).mp positive

/-- An answer in exact seconds. -/
theorem Divisible.divide?_eq_some {d rest : Duration} {seconds : Binary64} {count : ℕ}
    (divisible : Divisible d seconds) (found : d.divide? seconds = some (count, rest)) :
    rest.Finite ∧ d.exactSeconds = count * seconds.rational + rest.exactSeconds ∧
    0 ≤ rest.exactSeconds ∧ rest.exactSeconds < seconds.rational := by
  have second : (0 : ℚ) < 2 ^ 1074 := by positivity
  have answers := divisible.answers
  rw [found] at answers
  obtain ⟨holds, finite, exactly⟩ := answers
  have low := holds.low
  have high := holds.high
  rw [exactSeconds_eq, exactSeconds_eq, rational_eq, exactly]
  refine ⟨finite, ?_, ?_, ?_⟩
  · rw [Int.cast_sub, Int.cast_mul, Int.cast_natCast, sub_div, mul_div_assoc, add_sub_cancel]
  · exact div_nonneg (by exact_mod_cast sub_nonneg.mpr low) second.le
  · rw [div_lt_div_iff_of_pos_right second, Int.cast_lt]
    linarith

theorem Divisible.isSome_divide?_iff {d : Duration} {seconds : Binary64}
    (divisible : Divisible d seconds) :
    (d.divide? seconds).isSome = true ↔
      0 ≤ d.exactSteps ∧ d.value.steps < 2 ^ 32 * seconds.steps := by
  have answers := divisible.answers
  cases found : d.divide? seconds with
  | none =>
    rw [found] at answers
    constructor
    · intro reported
      cases reported
    · rintro ⟨nonneg, less⟩
      exact absurd answers (not_or.mpr ⟨nonneg.not_gt, less.not_ge⟩)
  | some answer =>
    rw [found] at answers
    obtain ⟨holds, _, _⟩ := answers
    obtain ⟨quotient, fits, start⟩ := start_of_divide found
    have less := lt_counts_of_start divisible.positive (isWhole_of_toNat?_floor start) fits
    have nonneg := mul_nonneg (Int.natCast_nonneg answer.1) divisible.positive.le
    exact ⟨fun _ => ⟨nonneg.trans holds.low, less⟩, fun _ => rfl⟩

/-- The correction of a rounded quotient ends, and it never lowers one candidate and raises
another. A quotient is reported together with the exact remainder, and none is reported exactly if
the duration is negative or its value is `2 ^ 32` parts or more. -/
theorem correction_ends {d : Duration} {seconds : Binary64} (finite : d.Finite)
    (small : |d.exactSeconds| < 2 ^ 1000) (positive : 0 < seconds.rational)
    (bounded : seconds.rational < 2 ^ 1000) :
    (∃ candidates result,
      Correction d (ofSeconds seconds) (d.value / seconds).floor candidates result) ∧
    (∀ candidates result,
      Correction d (ofSeconds seconds) (d.value / seconds).floor candidates result →
      OneWay candidates ∧ candidates.length ≤ 2 ∧ result = d.divide? seconds) ∧
    (∀ count rest, d.divide? seconds = some (count, rest) →
      rest.Finite ∧ d.exactSeconds = count * seconds.rational + rest.exactSeconds ∧
      0 ≤ rest.exactSeconds ∧ rest.exactSeconds < seconds.rational) ∧
    (d.exactSeconds < 0 → d.divide? seconds = none) ∧
    ((d.divide? seconds).isSome = true ↔
      0 ≤ d.exactSeconds ∧ d.value.rational < 2 ^ 32 * seconds.rational) := by
  have second : (0 : ℚ) < 2 ^ 1074 := by positivity
  have divisible := divisible_of_seconds finite small positive bounded
  have reported : (d.divide? seconds).isSome = true ↔
      0 ≤ d.exactSeconds ∧ d.value.rational < 2 ^ 32 * seconds.rational := by
    rw [divisible.isSome_divide?_iff, exactSeconds_eq, rational_eq, rational_eq, ← mul_div_assoc,
      div_lt_div_iff_of_pos_right second, le_div_iff₀ second, zero_mul, Int.cast_nonneg_iff,
      ← Int.cast_lt (R := ℚ), Int.cast_mul, Int.cast_pow, Int.cast_ofNat]
  obtain ⟨candidates, result, search⟩ := divisible.exists_search
  refine ⟨⟨candidates, result, search.run⟩, fun others other run => ?_,
    fun count rest found => divisible.divide?_eq_some found, fun negative => ?_, reported⟩
  · obtain ⟨rfl, rfl⟩ := search.run.unique run
    exact ⟨search.oneWay, search.short, search.reported.symm⟩
  · rw [← Option.not_isSome_iff_eq_none, reported]
    exact fun both => absurd negative (not_lt.mpr both.1)

/-- Three seconds but for a time that the value does not show. -/
def belowThree : Duration := (ofSeconds 3).push (ofBits 0xbc30000000000000)

theorem correction_ends_belowThree :
    belowThree.value = 3 ∧ belowThree.exactSeconds < 3 ∧
    ∃ rest, belowThree.divide? 1 = some (2, rest) ∧
      belowThree.exactSeconds = 2 * (1 : Binary64).rational + rest.exactSeconds ∧
      0 ≤ rest.exactSeconds ∧ rest.exactSeconds < (1 : Binary64).rational := by
  have finite : belowThree.Finite := finite_of_value (by decide +kernel)
  have counted : (belowThree.divide? 1).map Prod.fst = some 2 := by decide +kernel
  have positive : 0 < (1 : Binary64).rational := by decide +kernel
  have bounded : (1 : Binary64).rational < 2 ^ 1000 := by decide +kernel
  obtain ⟨_, _, sound, _, _⟩ := correction_ends finite (by decide +kernel) positive bounded
  obtain ⟨⟨_, rest⟩, found, rfl⟩ := Option.map_eq_some_iff.mp counted
  exact ⟨by decide +kernel, by decide +kernel, rest, found, (sound 2 rest found).2⟩

end PulseSequencer.Duration

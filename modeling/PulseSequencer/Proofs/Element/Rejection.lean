import Mathlib.Algebra.Order.Floor.Ring
import Mathlib.Data.Rat.Floor
import PulseSequencer.Proofs.Duration.Correction
import PulseSequencer.Proofs.Element.NormalForm

/-!
# Dead time that is rejected

Dead time is a loop over the longest timestamp, and a loop counts to `2 ^ 32 - 1`. Whether a count
fits is decided on the rounded duration. Just below `2 ^ 32` longest timestamps the spacing of
numbers is a second, and half a second below the bound a duration is rounded up to it. So the last
half second is rejected as well, although the exact quotient fits.

Results:
1. `value_lt_counts_iff`: the value is below `2 ^ 32` longest timestamps exactly until half a second
   before them.
2. `Element.dead_eq_error`, `Element.exists_dead`: dead time is rejected if its value is not below
   that bound, and made otherwise.
3. `Element.project_deadTime`: the exact durations at which dead time is rejected.
4. `Element.project_lastInstant`: dead time that is rejected although its quotient fits.
-/

namespace PulseSequencer

open Duration Clock

/-- The longest timestamps that a loop counts, and one more, are a whole number of seconds. -/
theorem Clock.counts_eq : 2 ^ 32 * maxDuration.steps = 7870610804782714 * 2 ^ 1074 := by
  decide +kernel

theorem Duration.value_lt_counts_iff {d : Duration} (finite : d.value.isFinite = true) :
    d.value.steps < 2 ^ 32 * maxDuration.steps ↔
      2 * d.exactSteps < 2 * (2 ^ 32 * maxDuration.steps) - 2 ^ 1074 := by
  rw [counts_eq, (rounded_value finite).lt_even_iff (by decide) (by decide) (by decide),
    sub_one_mul, mul_assoc]

namespace Element

theorem within_maxDuration {d : Duration} (finite : d.value.isFinite = true)
    (nonneg : 0 ≤ d.exactSteps) (le : d.value.steps ≤ maxDuration.steps) :
    Binary64.Within 0 maxDuration d.value :=
  ⟨(zero_le_value_iff finite).mpr nonneg,
    (Binary64.le_iff_steps finite isFinite_maxDuration).mpr le⟩

theorem dead_eq_error {d : Duration} (finite : d.value.isFinite = true)
    (large : 2 ^ 32 * maxDuration.steps ≤ d.value.steps) :
    dead d = .error (.range (.outOfRange deadTime d.value)) := by
  have positive := divisor_maxDuration.positive
  have greater : maxDuration < d.value := by
    rw [Binary64.lt_iff_steps isFinite_maxDuration finite]
    omega
  have nothing : d.divide? maxDuration = none := by
    refine Option.eq_none_iff_forall_ne_some.mpr fun ⟨count, rest⟩ found => ?_
    obtain ⟨quotient, fits, start⟩ := start_of_divide found
    exact absurd (lt_counts_of_start positive (Binary64.isWhole_of_toNat?_floor start) fits)
      large.not_gt
  rw [dead, if_pos (compare_of_lt finite isFinite_maxDuration greater), nothing]

theorem divisible_of_small {d : Duration} (finite : d.value.isFinite = true)
    (nonneg : 0 ≤ d.exactSteps) (small : d.value.steps < 2 ^ 32 * maxDuration.steps) :
    Divisible d maxDuration := by
  have positive := divisor_maxDuration.positive
  have bound := longest_le_safe
  refine ⟨finite_of_value finite, positive, ?_, by omega⟩
  rw [abs_of_nonneg nonneg]
  by_contra larger
  have := (rounded_value finite).le_of_le (Binary64.representable_two_pow 2093)
    (not_le.mp larger).le
  rw [← safe] at this
  omega

theorem exists_dead {d : Duration} (finite : d.value.isFinite = true) (nonneg : 0 ≤ d.exactSteps)
    (small : d.value.steps < 2 ^ 32 * maxDuration.steps) : ∃ element, dead d = .ok element := by
  by_cases greater : maxDuration < d.value
  · have divisible := divisible_of_small finite nonneg small
    obtain ⟨⟨count, rest⟩, found⟩ :=
      Option.isSome_iff_exists.mp (divisible.isSome_divide?_iff.mpr ⟨nonneg, small⟩)
    have answers := divisible.answers
    rw [found] at answers
    obtain ⟨holds, finiteRest, exactly⟩ := answers
    rw [dead_of_divide greater found]
    split
    · exact ⟨_, rfl⟩
    · -- What remains is shorter than the part, and so is its value.
      have below : rest.exactSteps < maxDuration.steps := by linarith [holds.high]
      have above : 0 ≤ rest.exactSteps := by linarith [holds.low]
      have finiteValue : rest.value.isFinite = true := by
        refine isFinite_value_of_safe finiteRest above ?_
        linarith [longest_le_safe, divisor_maxDuration.positive]
      have le := (rounded_value finiteValue).ge_of_ge
        (Binary64.representable_steps maxDuration) below.le
      rw [Timestamp.dead_of_within (within_maxDuration finiteValue above le)]
      exact ⟨_, rfl⟩
  · have notGreater : Seconds.compare d.value maxDuration ≠ .gt := fun gt =>
      greater (compare_eq_gt gt)
    rw [Binary64.lt_iff_steps isFinite_maxDuration finite, not_lt] at greater
    rw [dead, if_neg notGreater,
      Timestamp.dead_of_within (within_maxDuration finite nonneg greater)]
    exact ⟨_, rfl⟩

/-! ## Exact durations -/

/-- How long an element plays, in seconds and without rounding. -/
def exactSeconds (element : Element) : ℚ := element.exactDuration / 2 ^ 1074

/-- Half a second below `2 ^ 32` longest timestamps, in steps and in seconds. -/
theorem exactSeconds_lt_iff (element : Element) :
    element.exactSeconds < 2 ^ 32 * maxDuration.rational - 1 / 2 ↔
      2 * element.exactDuration < 2 * (2 ^ 32 * maxDuration.steps) - 2 ^ 1074 := by
  have second : (0 : ℚ) < 2 ^ 1074 := by positivity
  rw [exactSeconds, Binary64.rational_eq, ← Int.cast_lt (R := ℚ)]
  simp only [Int.cast_sub, Int.cast_mul, Int.cast_pow, Int.cast_ofNat]
  generalize (2 : ℚ) ^ 1074 = unit at *
  have bound : 2 ^ 32 * (maxDuration.steps / unit) - 1 / 2
      = (2 * (2 ^ 32 * maxDuration.steps) - unit) / (2 * unit) := by
    field_simp
  rw [bound, div_lt_div_iff₀ second (by positivity), mul_left_comm, ← mul_assoc,
    mul_lt_mul_iff_left₀ second]

theorem counts_lt_floor_iff (element : Element) :
    2 ^ 32 - 1 < ⌊element.exactSeconds / maxDuration.rational⌋ ↔
      2 ^ 32 * maxDuration.rational ≤ element.exactSeconds := by
  have positive : 0 < maxDuration.rational := by decide +kernel
  rw [Int.sub_one_lt_iff, Int.le_floor, le_div_iff₀ positive]
  norm_num

section

variable {element : Element} {group : ChannelSet} (finite : element.duration.value.isFinite = true)
  (irrelevant : element.isRelevant group = false)

include finite irrelevant

theorem project_eq_error (large : 2 ^ 32 * maxDuration.rational - 1 / 2 ≤ element.exactSeconds) :
    element.project group = .error (.range (.outOfRange deadTime element.duration.value)) := by
  rw [project_of_irrelevant irrelevant]
  refine dead_eq_error finite (not_lt.mp ?_)
  rw [value_lt_counts_iff finite, exactSteps_duration (finite_of_value finite),
    ← exactSeconds_lt_iff]
  exact not_lt.mpr large

theorem exists_project (small : element.exactSeconds < 2 ^ 32 * maxDuration.rational - 1 / 2) :
    ∃ result, element.project group = .ok result := by
  have exactly := exactSteps_duration (finite_of_value finite)
  rw [project_of_irrelevant irrelevant]
  refine exists_dead finite (exactly ▸ element.exactDuration_nonneg) ?_
  rw [value_lt_counts_iff finite, exactly, ← exactSeconds_lt_iff]
  exact small

end

/-- An element that has no effect on the group is rejected as dead time from half a second below
`2 ^ 32` longest timestamps on, and projected otherwise. Outside of that half second this is the
question whether the exact number of longest timestamps in it exceeds 32 bits. -/
theorem project_deadTime {element : Element} {group : ChannelSet}
    (finite : element.duration.value.isFinite = true)
    (irrelevant : element.isRelevant group = false) :
    (element.project group = .error (.range (.outOfRange deadTime element.duration.value)) ↔
      2 ^ 32 * maxDuration.rational - 1 / 2 ≤ element.exactSeconds) ∧
    ((∃ result, element.project group = .ok result) ↔
      element.exactSeconds < 2 ^ 32 * maxDuration.rational - 1 / 2) ∧
    (element.exactSeconds < 2 ^ 32 * maxDuration.rational - 1 / 2 ∨
        2 ^ 32 * maxDuration.rational ≤ element.exactSeconds →
      (element.project group = .error (.range (.outOfRange deadTime element.duration.value)) ↔
        2 ^ 32 - 1 < ⌊element.exactSeconds / maxDuration.rational⌋)) := by
  have rejected : element.project group
        = .error (.range (.outOfRange deadTime element.duration.value)) ↔
      2 ^ 32 * maxDuration.rational - 1 / 2 ≤ element.exactSeconds := by
    refine ⟨fun error => ?_, project_eq_error finite irrelevant⟩
    by_contra small
    obtain ⟨result, ok⟩ := exists_project finite irrelevant (not_le.mp small)
    cases ok.symm.trans error
  refine ⟨rejected, ⟨fun ⟨result, ok⟩ => ?_, exists_project finite irrelevant⟩, fun outside => ?_⟩
  · by_contra large
    cases ok.symm.trans (project_eq_error finite irrelevant (not_lt.mp large))
  · rw [rejected, counts_lt_floor_iff]
    rcases outside with small | large
    · exact iff_of_false (not_le.mpr small) (by linarith)
    · exact iff_of_true (by linarith) large

/-- The longest loop over the longest timestamp, on a channel of its own. -/
def longestLoop : Element :=
  .repeated (.timestamp { Timestamp.longestDead with updates := .ofLevel 1 (some true) }) 4294967295

theorem project_deadTime_longestLoop :
    longestLoop.exactSeconds = 4294967295 * maxDuration.rational ∧
    ∃ result, longestLoop.project (.ofList [.digital 0]) = .ok result := by
  have finite : longestLoop.duration.value.isFinite = true := by decide +kernel
  have irrelevant : longestLoop.isRelevant (.ofList [.digital 0]) = false := by decide +kernel
  have length : longestLoop.exactSeconds = 4294967295 * maxDuration.rational := by decide +kernel
  refine ⟨length, (project_deadTime finite irrelevant).2.1.mpr ?_⟩
  rw [length]
  decide +kernel

/-- The longest loop and a timestamp that is shorter than the longest one by the least time. -/
def lastInstant : Element :=
  .sequence [longestLoop,
    .timestamp ⟨.ofSeconds (.ofBits 0x413bf647612f3679), .ofLevel 1 (some false),
      by decide +kernel⟩]

/-- The exact quotient of dead time may fit 32 bits although the dead time is rejected. -/
theorem project_lastInstant :
    lastInstant.duration.value.isFinite = true ∧
    lastInstant.isRelevant (.ofList [.digital 0]) = false ∧
    ⌊lastInstant.exactSeconds / maxDuration.rational⌋ = 2 ^ 32 - 1 ∧
    lastInstant.project (.ofList [.digital 0])
      = .error (.range (.outOfRange deadTime lastInstant.duration.value)) := by
  have finite : lastInstant.duration.value.isFinite = true := by decide +kernel
  have irrelevant : lastInstant.isRelevant (.ofList [.digital 0]) = false := by decide +kernel
  exact ⟨finite, irrelevant, by decide +kernel,
    project_eq_error finite irrelevant (by decide +kernel)⟩

end Element

end PulseSequencer

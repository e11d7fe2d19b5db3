import PulseSequencer.Proofs.Duration.Search
import PulseSequencer.Proofs.Element.Preservation

/-!
# Dead time of dead time

Dead time above the longest timestamp is divided by it. A second division of what came out starts
from the same value and finds the same count and the same exact remainder, whatever partial sums
hold them.

Results:
1. `Timestamp.coalesce_eq_none_iff`: which timestamps do not merge.
2. `Element.dead_of_timestamp`, `Element.dead_of_loop`: a timestamp without updates and a loop over
   the longest one stand for themselves.
3. `Element.Divided.again`: a loop with a remainder stands for itself up to the partial sums of the
   remainder.
-/

namespace PulseSequencer

open Duration

/-! ## The longest timestamp -/

namespace Clock

theorem isFinite_maxDuration : maxDuration.isFinite = true := by decide +kernel

theorem divisor_maxDuration : Divisor maxDuration where
  positive := by decide +kernel
  room := by decide +kernel

/-- A duration of two of the longest timestamps is above one of them, rounded or not. -/
theorem maxDuration_lt {d : Duration} (finite : d.value.isFinite = true)
    (twice : 2 * maxDuration.steps ≤ d.exactSteps) : maxDuration < d.value := by
  have above := (rounded_value finite).le_of_le
    (Binary64.representable_steps maxDuration).double twice
  rw [Binary64.lt_iff_steps isFinite_maxDuration finite]
  have := divisor_maxDuration.positive
  omega

theorem longest_le_safe : 2 ^ 32 * maxDuration.steps ≤ safe := by decide +kernel

end Clock

open Clock

namespace Timestamp

theorem not_longer (t : Timestamp) : ¬ maxDuration < t.duration.value := by
  rw [Binary64.lt_iff_steps isFinite_maxDuration t.isFinite_value, not_lt]
  exact (Binary64.le_iff_steps t.isFinite_value isFinite_maxDuration).mp t.within.2

/-- A timestamp exceeds the longest duration by less than its rounding. -/
theorem exactSteps_lt (t : Timestamp) : t.duration.exactSteps < 2 * maxDuration.steps := by
  by_contra larger
  exact t.not_longer (maxDuration_lt t.isFinite_value (not_lt.mp larger))

/-- Two timestamps in a row do not overflow. -/
theorem add_spec (first second : Timestamp) :
    (first.duration + second.duration).value.isFinite = true ∧
      (first.duration + second.duration).exactSteps
        = first.duration.exactSteps + second.duration.exactSteps := by
  have nonnegFirst := first.exactSteps_nonneg
  have nonnegSecond := second.exactSteps_nonneg
  have positive := divisor_maxDuration.positive
  have small : first.duration.exactSteps + second.duration.exactSteps ≤ safe := by
    have belowFirst := first.exactSteps_lt
    have belowSecond := second.exactSteps_lt
    have room := longest_le_safe
    linarith
  have finite : (first.duration + second.duration).Finite := by
    refine finite_add first.finite second.finite ?_
    rw [abs_of_nonneg nonnegFirst, abs_of_nonneg nonnegSecond, ← safe_mul]
    have := safe_pos
    linarith
  have exactly := (Duration.add_spec finite).2.2
  refine ⟨isFinite_value_of_safe finite ?_ (exactly.trans_le small), exactly⟩
  rw [exactly]
  exact add_nonneg nonnegFirst nonnegSecond

/-- Only the upper end of the range can keep two timestamps from merging. -/
theorem within_add_iff (first second : Timestamp) :
    Binary64.Within 0 maxDuration (first.duration + second.duration).value ↔
      ¬ maxDuration < (first.duration + second.duration).value := by
  obtain ⟨finite, exactly⟩ := first.add_spec second
  have nonneg : 0 ≤ (first.duration + second.duration).exactSteps := by
    rw [exactly]
    exact add_nonneg first.exactSteps_nonneg second.exactSteps_nonneg
  rw [Binary64.Within, and_iff_right ((zero_le_value_iff finite).mpr nonneg),
    Binary64.lt_iff_steps isFinite_maxDuration finite, not_lt,
    Binary64.le_iff_steps finite isFinite_maxDuration]

/-- Neighbours stay apart if a change of the outputs is between them, or if they are too long
together. -/
theorem coalesce_eq_none_iff {first second : Timestamp} :
    first.coalesce second = none ↔
      (first.updates != second.updates && !first.duration.isZero) = true ∨
        maxDuration < (first.duration + second.duration).value := by
  have upper := first.within_add_iff second
  unfold coalesce
  split
  · next changed => exact iff_of_true rfl (.inl changed)
  · next unchanged =>
    rw [or_iff_right unchanged, ← not_iff_not, ← upper]
    dsimp only
    split
    · next within => exact iff_of_true (Option.some_ne_none _) within
    · next outside => exact iff_of_false (fun notNone => notNone rfl) outside

theorem dead_of_within {d : Duration} (within : Binary64.Within 0 maxDuration d.value) :
    dead d = .ok ⟨d, .empty, within⟩ := by
  have checked : timestampDuration.check d.value = .ok ⟨within⟩ := by
    rw [Quantity.check, if_pos (isFinite_of_within within), Quantity.checkRange]
    exact dif_pos within
  rw [dead, ofDuration, checked]

end Timestamp

namespace Element

theorem dead_of_timestamp {t : Timestamp} (still : t.updates = .empty) :
    dead t.duration = .ok (.timestamp t) := by
  have notGreater : Seconds.compare t.duration.value maxDuration ≠ .gt := fun greater =>
    t.not_longer (compare_eq_gt greater)
  rw [dead, if_neg notGreater, Timestamp.dead_of_within t.within]
  obtain ⟨duration, updates, within⟩ := t
  cases still
  rfl

/-! ## Division -/

theorem compare_of_lt {x y : Binary64} (finiteX : x.isFinite = true) (finiteY : y.isFinite = true)
    (lt : y < x) : Seconds.compare x y = .gt := by
  have notLt : ¬ x < y := by
    rw [Binary64.lt_iff_steps finiteY finiteX] at lt
    rw [Binary64.lt_iff_steps finiteX finiteY]
    omega
  rw [Seconds.compare, if_neg notLt, if_pos lt]

theorem dead_of_divide {d rest : Duration} {count : ℕ} (greater : maxDuration < d.value)
    (found : d.divide? maxDuration = some (count, rest)) :
    dead d = if rest.isZero then .ok (longestTimes count)
      else do return .sequence [longestTimes count, .timestamp (← Timestamp.dead rest)] := by
  have greater := compare_of_lt (isFinite_of_divide found) isFinite_maxDuration greater
  rw [dead, if_pos greater, found]
  rfl

/-- Nothing overflows up to the longest loop. -/
theorem fits_toNat (times : UInt32) : times.toNat ≤ maxCount := by
  have := times.toNat_lt
  unfold maxCount
  omega

theorem loop_spec {times : UInt32} (nonzero : times ≠ 0) :
    (repeated (.timestamp .longestDead) times).duration.Finite ∧
    (repeated (.timestamp .longestDead) times).duration.value.isFinite = true ∧
    (repeated (.timestamp .longestDead) times).duration.exactSteps
      = times.toNat * maxDuration.steps := by
  have emittable : (repeated (.timestamp .longestDead) times).Emittable fun _ => True :=
    ⟨nonzero, trivial⟩
  have length : (repeated (.timestamp .longestDead) times).exactDuration
      = times.toNat * maxDuration.steps := by
    rw [exactDuration, exactDuration_longestDead]
  obtain ⟨_, bound⟩ := divisor_maxDuration.mul_le (fits_toNat times)
  have spec := duration_spec emittable
    (by linarith [divisor_maxDuration.positive, longest_le_safe])
  rwa [length] at spec

/-- A loop over the longest timestamp is not divided any further. -/
theorem dead_of_loop {times : UInt32} (several : 1 < times.toNat) :
    dead (repeated (.timestamp .longestDead) times).duration
      = .ok (.repeated (.timestamp .longestDead) times) := by
  have nonzero : times ≠ 0 := by
    rintro rfl
    cases several
  obtain ⟨finite, finiteValue, exactly⟩ := loop_spec nonzero
  generalize (repeated (.timestamp .longestDead) times).duration = d at finite finiteValue exactly ⊢
  have positive := divisor_maxDuration.positive
  have holds : Holds d maxDuration times.toNat :=
    ⟨finite, fits_toNat times, exactly.ge, by linarith⟩
  have greater : maxDuration < d.value := by
    refine maxDuration_lt finiteValue ?_
    rw [exactly]
    exact mul_le_mul_of_nonneg_right (by exact_mod_cast several) positive.le
  -- The value that is divided was rounded, but not so far that the quotient needs another bit.
  obtain ⟨quotient, below, start⟩ := Binary64.toNat?_div_of_multiple positive
    (exactly ▸ rounded_value finiteValue) (Nat.zero_lt_of_lt several) times.toNat_lt
  obtain ⟨rest, found, finiteRest, exactRest⟩ :=
    holds.divide? divisor_maxDuration start (by unfold maxCount; omega)
  rw [exactly, sub_self] at exactRest
  have zero : rest.isZero = true := by
    refine (isZero_iff (isFinite_value finiteRest ?_)).mpr exactRest
    rw [exactRest]
    exact Binary64.two_pow_pos _
  rw [dead_of_divide greater found, if_pos zero, longestTimes, if_neg several.ne']
  exact congrArg _ (congrArg _ UInt32.ofNat_toNat)

/-! ## Remainders -/

theorem exactDuration_row {count : ℕ} (fits : count ≤ maxCount) (t : Timestamp) :
    (sequence [longestTimes count, .timestamp t]).exactDuration
      = count * maxDuration.steps + t.duration.exactSteps := by
  rw [exactDuration, exactDurations_eq_map]
  simp [exactDuration_longestTimes fits, exactDuration]

/-- Two timestamps of the same exact duration have the same value. -/
theorem within_of_exactSteps {d : Duration} (finite : d.value.isFinite = true) {t : Timestamp}
    (same : d.exactSteps = t.duration.exactSteps) :
    Binary64.Within 0 maxDuration d.value := by
  have steps := value_steps_eq finite t.isFinite_value same
  obtain ⟨low, high⟩ := t.within
  constructor
  · rw [Binary64.le_iff_steps rfl t.isFinite_value] at low
    rwa [Binary64.le_iff_steps rfl finite, steps]
  · rw [Binary64.le_iff_steps t.isFinite_value isFinite_maxDuration] at high
    rwa [Binary64.le_iff_steps finite isFinite_maxDuration, steps]

/-- A loop over the longest timestamp with a remainder, as dead time is divided. -/
structure Divided (d : Duration) (count : ℕ) (t : Timestamp) : Prop where
  greater : maxDuration < d.value
  found : d.divide? maxDuration = some (count, t.duration)
  notZero : t.duration.isZero = false
  still : t.updates = .empty

theorem divided_of_sequence {d : Duration} {children : List Element}
    (ok : dead d = .ok (.sequence children)) :
    ∃ count t, Divided d count t ∧ children = [longestTimes count, .timestamp t] := by
  have notSequence : ∀ count, longestTimes count ≠ .sequence children := by
    intro count same
    unfold longestTimes at same
    split at same <;> cases same
  unfold dead at ok
  split at ok
  · next greater =>
    split at ok
    · cases ok
    · next count rest found =>
      dsimp only at ok
      split at ok
      · exact absurd (Except.ok.inj ok) (notSequence count)
      · next notZero =>
        obtain ⟨t, made, same⟩ := Except.bind_eq_ok_iff.mp ok
        obtain ⟨rfl, still⟩ := Timestamp.dead_eq_ok made
        cases same
        exact ⟨count, t,
          ⟨compare_eq_gt greater, found, Bool.eq_false_iff.mpr notZero, still⟩, rfl⟩
  · obtain ⟨t, _, same⟩ := Except.bind_eq_ok_iff.mp ok
    cases same

namespace Divided

variable {d : Duration} {count : ℕ} {t : Timestamp}

theorem holds (divided : Divided d count t) : Holds d maxDuration count := by
  refine holds_of_divide divisor_maxDuration divided.found t.finite ?_
  rw [abs_of_nonneg t.exactSteps_nonneg]
  linarith [t.exactSteps_lt, divisor_maxDuration.positive]

theorem emittable (divided : Divided d count t) (group : ChannelSet) :
    (sequence [longestTimes count, .timestamp t]).Emittable (Timestamp.Inside group) :=
  ⟨emittable_longestTimes (count_pos divided.greater divided.found t.within) divided.holds.fits,
    inside_of_still divided.still, trivial⟩

theorem exactSteps_eq (divided : Divided d count t) :
    d.exactSteps = count * maxDuration.steps + t.duration.exactSteps :=
  ((divide?_eq_some divided.found).exactSteps_eq t.finite).2

/-- The loop and the remainder together have the value that was divided. -/
theorem value_eq (divided : Divided d count t) :
    (sequence [longestTimes count, .timestamp t]).duration.Finite ∧
    (sequence [longestTimes count, .timestamp t]).duration.exactSteps = d.exactSteps ∧
    (sequence [longestTimes count, .timestamp t]).duration.value = d.value := by
  have holds := divided.holds
  have length := (exactDuration_row holds.fits t).trans divided.exactSteps_eq.symm
  obtain ⟨_, bound⟩ := divisor_maxDuration.mul_le holds.fits
  obtain ⟨finite, finiteValue, exactly⟩ := duration_spec (divided.emittable .empty)
    (length.trans_le (holds.high.le.trans (bound.trans longest_le_safe)))
  rw [length] at exactly
  refine ⟨finite, exactly, ?_⟩
  have finiteD := isFinite_of_divide divided.found
  have steps := value_steps_eq finiteValue finiteD exactly
  rcases (Binary64.sameNumber_iff_steps finiteValue finiteD).mpr steps with same | ⟨_, zero⟩
  · exact same
  · have above := (Binary64.lt_iff_steps isFinite_maxDuration finiteD).mp divided.greater
    rw [(Binary64.isZero_iff_steps finiteD).mp zero] at above
    exact absurd above divisor_maxDuration.positive.le.not_gt

/-- Divided again, the row has the same count and a remainder of the same length. -/
theorem again (divided : Divided d count t) :
    ∃ u : Timestamp, Divided (sequence [longestTimes count, .timestamp t]).duration count u ∧
      u.duration.exactSteps = t.duration.exactSteps ∧
      dead (sequence [longestTimes count, .timestamp t]).duration
        = .ok (.sequence [longestTimes count, .timestamp u]) := by
  obtain ⟨finite, exactly, value⟩ := divided.value_eq
  have holds := divided.holds
  obtain ⟨quotient, fits, start⟩ := start_of_divide divided.found
  generalize (sequence [longestTimes count, .timestamp t]).duration = row
    at finite exactly value ⊢
  have holdsRow : Holds row maxDuration count :=
    ⟨finite, holds.fits, exactly ▸ holds.low, exactly ▸ holds.high⟩
  obtain ⟨rest, found, finiteRest, exactRest⟩ :=
    holdsRow.divide? divisor_maxDuration (value ▸ start) fits
  have same : rest.exactSteps = t.duration.exactSteps := by
    rw [exactRest, exactly, divided.exactSteps_eq]
    ring
  have finiteValue : rest.value.isFinite = true := by
    refine isFinite_value finiteRest ?_
    rw [same, abs_of_nonneg t.exactSteps_nonneg]
    linarith [t.exactSteps_lt, divisor_maxDuration.room, divisor_maxDuration.positive]
  have notZero : rest.isZero = false := by
    rw [Bool.eq_false_iff, Ne, isZero_iff finiteValue, same, ← isZero_iff t.isFinite_value,
      divided.notZero]
    exact Bool.false_ne_true
  have within := within_of_exactSteps finiteValue same
  have greater : maxDuration < row.value := value ▸ divided.greater
  refine ⟨⟨rest, .empty, within⟩, ⟨greater, found, notZero, rfl⟩, same, ?_⟩
  rw [dead_of_divide greater found, notZero, Timestamp.dead_of_within within]
  rfl

end Divided

end Element

end PulseSequencer

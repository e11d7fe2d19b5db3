import PulseSequencer.Proofs.Clock
import PulseSequencer.Proofs.Element.Preservation

/-!
# Whole numbers of ticks

Durations in seconds are hardly ever whole multiples of the tick as numbers, since neither the tick
nor most of its multiples are. `Clock.Near` allows for the rounding of both. The error is relative
to the duration and not a part of a tick, so that it does not grow when durations are added up.

Results:
1. `Clock.Near.unique`: up to the longest timestamp, a duration is near one number of ticks only.
2. `Element.onGrid_project`: if all timestamps last for whole ticks, so do those of a projection.
-/

namespace PulseSequencer

open Duration

/-! ## Durations -/

namespace Clock

/-- A duration of `k` ticks, up to a relative error of `2 ^ -50`. -/
def Near (d : ℤ) (k : ℕ) : Prop :=
  2 ^ 50 * |d - k * tick.steps| ≤ k * tick.steps

namespace Near

variable {d e : ℤ} {k l : ℕ}

theorem zero : Near 0 0 := by
  simp [Near]

theorem add (near : Near d k) (near' : Near e l) : Near (d + e) (k + l) := by
  unfold Near at *
  have triangle := abs_add_le (d - k * tick.steps) (e - l * tick.steps)
  push_cast
  rw [add_mul, add_sub_add_comm]
  omega

theorem longest : Near maxDuration.steps maxTicks := by
  unfold Near
  decide +kernel

/-- Up to the longest timestamp, the error is at most a quarter of a tick. -/
theorem abs_le (near : Near d k) (le : d ≤ 2 ^ 48 * tick.steps) :
    4 * |d - k * tick.steps| ≤ tick.steps := by
  unfold Near at near
  have tickPos := tick_pos
  have distance := neg_abs_le (d - k * tick.steps)
  -- The error may make `k` larger than the duration, but not by a whole tick.
  have small : (2 ^ 50 - 1) * (k * tick.steps) < (2 ^ 50 - 1) * (2 ^ 48 + 1) * tick.steps := by
    omega
  have count : (k : ℤ) * tick.steps < (2 ^ 48 + 1) * tick.steps := by omega
  have fits := lt_of_mul_lt_mul_right count tickPos.le
  have := mul_le_mul_of_nonneg_right (Int.lt_add_one_iff.mp fits) tickPos.le
  omega

end Near

/-- Numbers of ticks that are less than one tick apart are the same. -/
theorem eq_of_distance {k l : ℕ} (lt : |k * tick.steps - l * tick.steps| < tick.steps) : k = l := by
  rw [← sub_mul, abs_mul, abs_of_pos tick_pos, mul_lt_iff_lt_one_left tick_pos] at lt
  have := Int.abs_lt_one_iff.mp lt
  omega

theorem Near.unique {d : ℤ} {k l : ℕ} (near : Near d k) (near' : Near d l)
    (le : d ≤ 2 ^ 48 * tick.steps) : k = l := by
  have first := near.abs_le le
  have second := near'.abs_le le
  have triangle := abs_sub_le (k * tick.steps) d (l * tick.steps)
  rw [abs_sub_comm _ d] at triangle
  have := tick_pos
  exact eq_of_distance (by omega)

/-- A duration of a whole number of ticks. -/
def OnGrid (d : ℤ) : Prop := ∃ k, Near d k

theorem accumulates_onGrid : Element.Accumulates OnGrid where
  zero := ⟨0, .zero⟩
  add := fun ⟨k, near⟩ ⟨l, near'⟩ => ⟨k + l, near.add near'⟩

end Clock

/-! ## Elements -/

def Timestamp.OnGrid (t : Timestamp) : Prop :=
  Clock.OnGrid t.duration.exactSteps

namespace Element

/-- Every timestamp of the element lasts for a whole number of ticks. -/
def OnGrid (element : Element) : Prop :=
  ∀ t ∈ element.timestamps, t.OnGrid

theorem onGrid_timestamp {t : Timestamp} : (timestamp t).OnGrid ↔ t.OnGrid := by
  simp [OnGrid, timestamps]

theorem mem_timestampsAll {elements : List Element} {t : Timestamp} :
    t ∈ timestampsAll elements ↔ ∃ element ∈ elements, t ∈ element.timestamps := by
  induction elements with
  | nil => simp [timestampsAll]
  | cons element rest ih => simp [timestampsAll, ih]

theorem onGrid_sequence {children : List Element} :
    (sequence children).OnGrid ↔ ∀ child ∈ children, child.OnGrid := by
  simp only [OnGrid, timestamps, mem_timestampsAll]
  exact ⟨fun all child present t inChild => all t ⟨child, present, inChild⟩,
    fun all t ⟨child, present, inChild⟩ => all child present t inChild⟩

theorem OnGrid.exactDuration {element : Element} (onGrid : element.OnGrid) :
    Clock.OnGrid element.exactDuration :=
  exactDuration_of_timestamps Clock.accumulates_onGrid onGrid

/-! ## Projections -/

theorem onGrid_longestTimes (count : ℕ) : (longestTimes count).OnGrid := by
  have longest : Timestamp.longestDead.OnGrid := by
    rw [Timestamp.OnGrid, Timestamp.longestDead, exactSteps_ofSeconds]
    exact ⟨Clock.maxTicks, .longest⟩
  unfold longestTimes
  split
  · exact onGrid_timestamp.mpr longest
  · rw [OnGrid, timestamps]
    exact onGrid_timestamp.mpr longest

/-- Dead time that one timestamp can hold. What a loop over the longest timestamp leaves of it is
nothing. -/
theorem onGrid_deadTime {d : Duration} {element : Element} (deadTime : DeadTime d element)
    (onGrid : Clock.OnGrid d.exactSteps) (le : d.exactSteps ≤ Clock.maxDuration.steps) :
    element.OnGrid := by
  cases deadTime with
  | single duration _ =>
    rw [onGrid_timestamp, Timestamp.OnGrid, duration]
    exact onGrid
  | loop _ _ _ => exact onGrid_longestTimes _
  | @split count t positive _ _ exactly =>
    have longest : 0 < Clock.maxDuration.steps := by decide +kernel
    have nothing : t.duration.exactSteps = 0 := by
      have nonneg := t.exactSteps_nonneg
      have : 1 * Clock.maxDuration.steps ≤ count * Clock.maxDuration.steps :=
        mul_le_mul_of_nonneg_right (by exact_mod_cast positive) longest.le
      omega
    rw [onGrid_sequence]
    simp only [List.forall_mem_cons, List.not_mem_nil, false_implies, implies_true, and_true]
    refine ⟨onGrid_longestTimes count, ?_⟩
    rw [onGrid_timestamp, Timestamp.OnGrid, nothing]
    exact ⟨0, .zero⟩

theorem onGrid_coalesce {first second merged : Timestamp}
    (found : first.coalesce second = some merged) (onGrid : (timestamp first).OnGrid)
    (onGridSecond : (timestamp second).OnGrid) : (timestamp merged).OnGrid := by
  rw [onGrid_timestamp] at *
  rw [Timestamp.OnGrid, exactDuration_coalesce found]
  exact Clock.accumulates_onGrid.add onGrid onGridSecond

theorem onGrid_joined {elements : List Element} (onGrid : ∀ e ∈ elements, e.OnGrid) :
    (joined elements).OnGrid := by
  rw [joined, onGrid_sequence]
  refine forall_joined onGrid_coalesce fun e present => ?_
  have onGrid := onGrid e present
  unfold parts
  split
  · exact onGrid_sequence.mp onGrid
  · simpa using onGrid

theorem timestamps_repeatTimes (element : Element) (times : UInt32) :
    (element.repeatTimes times).timestamps = element.timestamps := by
  unfold repeatTimes
  split
  · split <;> rfl
  · rfl

theorem onGrid_collapse {element result : Element} (ok : dead element.duration = .ok result)
    (onGrid : Clock.OnGrid element.exactDuration)
    (le : element.exactDuration ≤ Clock.maxDuration.steps) : result.OnGrid := by
  obtain ⟨finite, deadTime⟩ := dead_eq_ok ok
  rw [← exactSteps_duration finite] at onGrid le
  exact onGrid_deadTime deadTime onGrid le

/-- The exact duration goes along, since dead time takes the place of what was projected already. -/
theorem onGrid_steps (group : ChannelSet) : ProjectionSteps group fun element result =>
    result.exactDuration = element.exactDuration ∧
      (element.OnGrid → element.exactDuration ≤ Clock.maxDuration.steps → result.OnGrid) where
  still irrelevant ok := ⟨(exactDuration_steps group).still irrelevant ok,
    fun onGrid le => onGrid_collapse ok onGrid.exactDuration le⟩
  collapse := fun ⟨same, _⟩ irrelevant ok =>
    ⟨(exactDuration_steps group).collapse same irrelevant ok, fun onGrid le =>
      onGrid_collapse ok (same ▸ onGrid.exactDuration) (same ▸ le)⟩
  timestamp t := by
    refine ⟨rfl, fun onGrid _ => ?_⟩
    rw [onGrid_timestamp] at onGrid ⊢
    exact onGrid
  trigger := ⟨rfl, fun onGrid _ => onGrid⟩
  sequence all := by
    refine ⟨(exactDuration_steps group).sequence (all.imp fun _ _ related => related.1), ?_⟩
    intro onGrid le
    refine onGrid_joined fun result present => ?_
    obtain ⟨child, inChildren, _, keeps⟩ := exists_related all present
    exact keeps (onGrid_sequence.mp onGrid child inChildren)
      ((exactDuration_child_le inChildren).trans le)
  never ok := by
    refine ⟨(exactDuration_steps group).never ok, fun _ _ => ?_⟩
    obtain ⟨_, deadTime⟩ := dead_eq_ok ok
    have longest : 0 ≤ Clock.maxDuration.steps := by decide +kernel
    exact onGrid_deadTime deadTime ⟨0, by rw [exactSteps_zero]; exact .zero⟩
      (exactSteps_zero.trans_le longest)
  once := fun ⟨same, keeps⟩ => by
    refine ⟨(exactDuration_steps group).once same, fun onGrid le => keeps onGrid ?_⟩
    exact (exactDuration_body_le (by decide)).trans le
  repeated := fun nonzero ⟨same, keeps⟩ => by
    refine ⟨(exactDuration_steps group).repeated nonzero same, fun onGrid le => ?_⟩
    rw [OnGrid, timestamps_repeatTimes]
    exact keeps onGrid ((exactDuration_body_le nonzero).trans le)
  subroutine := fun ⟨same, keeps⟩ => by
    refine ⟨(exactDuration_steps group).subroutine same, fun onGrid le => ?_⟩
    rw [exactDuration] at le
    exact keeps onGrid le

/-- The timestamps of a projection last for whole ticks, if those of the element do and one
timestamp could hold them all. -/
theorem onGrid_project {element result : Element} {group : ChannelSet}
    (ok : element.project group = .ok result) (onGrid : element.OnGrid)
    (le : element.exactDuration ≤ Clock.maxDuration.steps) : result.OnGrid :=
  ((onGrid_steps group).project ok).2 onGrid le

end Element

end PulseSequencer

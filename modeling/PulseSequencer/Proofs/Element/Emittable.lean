import PulseSequencer.Proofs.Element.Projection
import PulseSequencer.Proofs.Program.Lowering

/-!
# Projections can be played

A projection has no elements side by side, repeats nothing zero times and updates channels of the
group only, so that the sequencer of the group can play it unless it waits for a trigger.

Results:
1. `Element.emittable_joined`, `Element.emittable_repeatTimes`: neither merging neighbours nor
   multiplying counts takes this away.
2. `Element.project_emittable`: every projection can be played.
-/

namespace PulseSequencer

open Duration

/-- A timestamp that updates channels of a group only. -/
def Timestamp.Inside (group : ChannelSet) (t : Timestamp) : Prop :=
  ∀ channel ∈ t.channels, channel ∈ group

namespace Element

variable {group : ChannelSet}

theorem inside_of_still {t : Timestamp} (still : t.updates = .empty) : t.Inside group := by
  intro channel updated
  rw [Timestamp.channels, still, UpdateMap.mem_channels, UpdateMap.get?_empty] at updated
  cases updated

theorem inside_restrict (t : Timestamp) : (t.restrict group).Inside group := by
  intro channel updated
  rw [Timestamp.channels, Timestamp.restrict, UpdateMap.mem_channels, UpdateMap.get?_restrict]
    at updated
  split at updated
  · assumption
  · cases updated

theorem inside_coalesce {first second merged : Timestamp}
    (found : first.coalesce second = some merged) (inside : first.Inside group)
    (insideSecond : second.Inside group) : merged.Inside group := by
  intro channel updated
  rw [Timestamp.channels, (coalesce_eq_some found).2.1, UpdateMap.mem_channels,
    UpdateMap.get?_merge, Option.isSome_or, Bool.or_eq_true] at updated
  rcases updated with later | earlier
  · exact insideSecond channel (UpdateMap.mem_channels.mpr later)
  · exact inside channel (UpdateMap.mem_channels.mpr earlier)

/-! ## Dead time -/

theorem emittable_longestTimes {count : ℕ} (positive : 0 < count) (fits : count ≤ maxCount) :
    (longestTimes count).Emittable (Timestamp.Inside group) := by
  have still : Timestamp.longestDead.Inside group := inside_of_still rfl
  unfold longestTimes
  split
  · exact still
  · refine ⟨fun zero => ?_, still⟩
    have same := congrArg UInt32.toNat zero
    rw [toNat_toUInt32 fits] at same
    exact positive.ne' same

theorem emittable_dead {d : Duration} {element : Element} (dead : DeadTime d element) :
    element.Emittable (Timestamp.Inside group) := by
  cases dead with
  | single _ still => exact inside_of_still still
  | loop positive fits _ => exact emittable_longestTimes positive fits
  | split positive fits still _ =>
    exact ⟨emittable_longestTimes positive fits, inside_of_still still, trivial⟩

/-! ## Rows and repetitions -/

theorem emittable_parts {element : Element}
    (emittable : element.Emittable (Timestamp.Inside group)) :
    ∀ e ∈ parts element, e.Emittable (Timestamp.Inside group) := by
  unfold parts
  split
  · exact emittableAll_iff.mp emittable
  · simpa using emittable

theorem emittable_joined {elements : List Element}
    (emittable : ∀ e ∈ elements, e.Emittable (Timestamp.Inside group)) :
    (joined elements).Emittable (Timestamp.Inside group) := by
  rw [joined, Emittable, emittableAll_iff]
  exact forall_joined inside_coalesce fun e present => emittable_parts (emittable e present)

theorem emittable_repeatTimes {element : Element} {times : UInt32} (nonzero : times ≠ 0)
    (emittable : element.Emittable (Timestamp.Inside group)) :
    (element.repeatTimes times).Emittable (Timestamp.Inside group) := by
  unfold repeatTimes
  split
  · next body inner =>
    split
    · next fits =>
      obtain ⟨innerNonzero, emittableBody⟩ := emittable
      refine ⟨fun zero => ?_, emittableBody⟩
      have same := congrArg UInt32.toNat zero
      rw [toNat_mul_of_fits fits] at same
      rcases Nat.mul_eq_zero.mp same with innerZero | timesZero
      · exact innerNonzero (UInt32.toNat_inj.mp innerZero)
      · exact nonzero (UInt32.toNat_inj.mp timesZero)
    · exact ⟨nonzero, emittable⟩
  · exact ⟨nonzero, emittable⟩

/-! ## Projections -/

theorem emittable_steps : ProjectionSteps group
    fun _ result => result.Emittable (Timestamp.Inside group) where
  still _ ok := emittable_dead (dead_eq_ok ok).2
  collapse _ _ ok := emittable_dead (dead_eq_ok ok).2
  timestamp t := inside_restrict t
  trigger := trivial
  sequence all := by
    refine emittable_joined fun e present => ?_
    obtain ⟨_, _, emittable⟩ := exists_related all present
    exact emittable
  never ok := emittable_dead (dead_eq_ok ok).2
  once emittable := emittable
  repeated nonzero emittable := emittable_repeatTimes nonzero emittable
  subroutine emittable := emittable

theorem project_emittable {element result : Element} (ok : element.project group = .ok result) :
    result.Emittable (Timestamp.Inside group) :=
  emittable_steps.project ok

end Element

end PulseSequencer

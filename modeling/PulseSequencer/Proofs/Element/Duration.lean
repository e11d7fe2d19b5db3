import Mathlib.Algebra.Order.BigOperators.Group.List
import PulseSequencer.Element.Projection
import PulseSequencer.Proofs.Duration.Division

/-!
# The exact duration of an element

An element lasts for the sum of what its timestamps last for, counted as often as they are played.
The duration that is computed from unrounded sums is that number exactly, unless it overflows.

Results:
1. `Element.exactDuration_of_timestamps`: what holds of the timestamps and of sums holds of the
   element. In particular no element lasts for less than nothing.
2. `Element.exactSteps_duration`: a finite duration is exact, however the element is nested.
-/

namespace PulseSequencer

open Duration

/-! ## Timestamps -/

theorem isFinite_of_within {x : Binary64} (within : Binary64.Within 0 Clock.maxDuration x) :
    x.isFinite = true :=
  Binary64.isFinite_of_within rfl (by decide +kernel) within

namespace Timestamp

theorem isFinite_value (t : Timestamp) : t.duration.value.isFinite = true :=
  isFinite_of_within t.within

theorem finite (t : Timestamp) : t.duration.Finite :=
  finite_of_value t.isFinite_value

theorem exactSteps_nonneg (t : Timestamp) : 0 ≤ t.duration.exactSteps :=
  (zero_le_value_iff t.isFinite_value).mp t.within.1

/-- A timestamp without updates lasts for the duration it was made for. -/
theorem dead_eq_ok {d : Duration} {t : Timestamp} (ok : dead d = .ok t) :
    t.duration = d ∧ t.updates = .empty := by
  unfold dead ofDuration at ok
  split at ok
  · cases ok
    exact ⟨rfl, rfl⟩
  · cases ok

end Timestamp

namespace Element

/-! ## Exact durations -/

/-- The number beside the longest of several durations. -/
def besideLongest : List (Duration × ℤ) → ℤ
  | [] => 0
  | first :: rest =>
    (rest.foldl (fun best next =>
      if Seconds.compare best.1.value next.1.value = .gt then best else next) first).2

mutual

/-- How long an element plays, in steps. Of elements side by side, the one that is taken for the
longest decides. -/
def exactDuration : Element → ℤ
  | .timestamp t => t.duration.exactSteps
  | .trigger => 0
  | .sequence children => (exactDurations children).sum
  | .parallel children => besideLongest ((durations children).zip (exactDurations children))
  | .repeated body times => times.toNat * body.exactDuration
  | .subroutine body => body.exactDuration

def exactDurations : List Element → List ℤ
  | [] => []
  | element :: rest => element.exactDuration :: exactDurations rest

end

theorem length_durations : ∀ elements : List Element,
    (durations elements).length = (exactDurations elements).length
  | [] => rfl
  | _ :: rest => congrArg (· + 1) (length_durations rest)

/-- The longest of several durations is one of them, and its number is the one beside it. -/
theorem longest_mem {pairs : List (Duration × ℤ)} (nonempty : pairs ≠ []) :
    (longest (pairs.map Prod.fst), besideLongest pairs) ∈ pairs := by
  have fold : ∀ (rest : List (Duration × ℤ)) (first : Duration × ℤ),
      ∃ pair ∈ first :: rest,
        (rest.map Prod.fst).foldl (fun best d =>
          if Seconds.compare best.value d.value = .gt then best else d) first.1 = pair.1 ∧
        rest.foldl (fun best next =>
          if Seconds.compare best.1.value next.1.value = .gt then best else next) first = pair := by
    intro rest
    induction rest with
    | nil => exact fun first => ⟨first, List.mem_cons_self, rfl, rfl⟩
    | cons next rest ih =>
      intro first
      simp only [List.map_cons, List.foldl_cons]
      by_cases longer : Seconds.compare first.1.value next.1.value = .gt
      · obtain ⟨pair, present, same, samePair⟩ := ih first
        rw [if_pos longer, if_pos longer]
        refine ⟨pair, ?_, same, samePair⟩
        rcases List.mem_cons.mp present with rfl | inRest
        · exact List.mem_cons_self
        · exact List.mem_cons_of_mem _ (List.mem_cons_of_mem _ inRest)
      · obtain ⟨pair, present, same, samePair⟩ := ih next
        rw [if_neg longer, if_neg longer]
        exact ⟨pair, List.mem_cons_of_mem _ present, same, samePair⟩
  cases pairs with
  | nil => exact absurd rfl nonempty
  | cons first rest =>
    obtain ⟨pair, present, same, samePair⟩ := fold rest first
    rw [List.map_cons, longest, besideLongest, same, samePair]
    exact present

mutual

/-- The timestamps in an element, each one once however often it is played. -/
def timestamps : Element → List Timestamp
  | .timestamp t => [t]
  | .trigger => []
  | .sequence children => timestampsAll children
  | .parallel children => timestampsAll children
  | .repeated body _ => body.timestamps
  | .subroutine body => body.timestamps

def timestampsAll : List Element → List Timestamp
  | [] => []
  | element :: rest => element.timestamps ++ timestampsAll rest

end

/-- A property of numbers that sums inherit from their terms. -/
structure Accumulates (holds : ℤ → Prop) : Prop where
  zero : holds 0
  add : ∀ {m n}, holds m → holds n → holds (m + n)

theorem Accumulates.sum {holds : ℤ → Prop} (accumulates : Accumulates holds) {numbers : List ℤ}
    (all : ∀ n ∈ numbers, holds n) : holds numbers.sum := by
  induction numbers with
  | nil => exact accumulates.zero
  | cons n rest ih =>
    obtain ⟨first, later⟩ := List.forall_mem_cons.mp all
    rw [List.sum_cons]
    exact accumulates.add first (ih later)

mutual

/-- What holds of the timestamps of an element and of sums with them holds of its duration. -/
theorem exactDuration_of_timestamps {holds : ℤ → Prop} (accumulates : Accumulates holds) :
    ∀ {element : Element}, (∀ t ∈ element.timestamps, holds t.duration.exactSteps) →
      holds element.exactDuration
  | .timestamp t, all => by
    rw [exactDuration]
    exact all t List.mem_cons_self
  | .trigger, _ => by
    rw [exactDuration]
    exact accumulates.zero
  | .sequence children, all => by
    rw [exactDuration]
    exact accumulates.sum (exactDurations_of_timestamps accumulates all)
  | .parallel children, all => by
    rw [exactDuration]
    by_cases empty : (durations children).zip (exactDurations children) = []
    · rw [empty, besideLongest]
      exact accumulates.zero
    · exact exactDurations_of_timestamps accumulates all _
        (List.of_mem_zip (longest_mem empty)).2
  | .repeated body times, all => by
    rw [timestamps] at all
    have single := exactDuration_of_timestamps accumulates all
    have passes : ∀ n ∈ List.replicate times.toNat body.exactDuration, holds n :=
      List.forall_mem_replicate.mpr (.inr single)
    have sum := accumulates.sum passes
    rw [List.sum_replicate, nsmul_eq_mul] at sum
    rw [exactDuration]
    exact sum
  | .subroutine body, all => by
    rw [timestamps] at all
    rw [exactDuration]
    exact exactDuration_of_timestamps accumulates all

theorem exactDurations_of_timestamps {holds : ℤ → Prop} (accumulates : Accumulates holds) :
    ∀ {elements : List Element}, (∀ t ∈ timestampsAll elements, holds t.duration.exactSteps) →
      ∀ n ∈ exactDurations elements, holds n
  | [], _ => by simp [exactDurations]
  | element :: rest, all => by
    obtain ⟨first, later⟩ := List.forall_mem_append.mp all
    rw [exactDurations]
    exact List.forall_mem_cons.mpr
      ⟨exactDuration_of_timestamps accumulates first,
        exactDurations_of_timestamps accumulates later⟩

end

theorem exactDuration_nonneg (element : Element) : 0 ≤ element.exactDuration :=
  exactDuration_of_timestamps ⟨le_rfl, add_nonneg⟩ fun t _ => t.exactSteps_nonneg

theorem exactDurations_nonneg (elements : List Element) : ∀ n ∈ exactDurations elements, 0 ≤ n :=
  exactDurations_of_timestamps ⟨le_rfl, add_nonneg⟩ fun t _ => t.exactSteps_nonneg

/-! ## Computed durations -/

theorem map_exactSteps {durations : List Duration} {numbers : List ℤ}
    (same : List.Forall₂ (fun d n => d.Finite → d.exactSteps = n) durations numbers)
    (finite : ∀ d ∈ durations, d.Finite) : durations.map exactSteps = numbers := by
  induction same with
  | nil => rfl
  | cons first _ ih =>
    obtain ⟨finiteFirst, finiteRest⟩ := List.forall_mem_cons.mp finite
    rw [List.map_cons, first finiteFirst, ih finiteRest]

mutual

/-- A finite duration is exact. -/
theorem exactSteps_duration : ∀ {element : Element}, element.duration.Finite →
    element.duration.exactSteps = element.exactDuration
  | .timestamp t, _ => by rw [duration, exactDuration]
  | .trigger, _ => by rw [duration, exactDuration, exactSteps_zero]
  | .sequence children, finite => by
    rw [duration] at finite ⊢
    obtain ⟨_, allFinite, sum⟩ := total_spec finite
    rw [total, sum, exactSteps_zero, zero_add, exactDuration,
      map_exactSteps (exactSteps_durations children) allFinite]
  | .parallel children, finite => by
    rw [duration] at finite ⊢
    rw [exactDuration]
    have first : ((durations children).zip (exactDurations children)).map Prod.fst
        = durations children := List.map_fst_zip (length_durations children).le
    by_cases empty : (durations children).zip (exactDurations children) = []
    · rw [empty] at first ⊢
      rw [← first]
      rfl
    · have picked := longest_mem empty
      rw [first] at picked
      exact (List.forall₂_iff_zip.mp (exactSteps_durations children)).2 picked finite
  | .repeated body times, finite => by
    rw [duration] at finite ⊢
    obtain ⟨finiteBody, product⟩ := scale_spec finite
    rw [product, exactSteps_duration finiteBody, exactDuration, mul_comm]
  | .subroutine body, finite => by
    rw [duration] at finite ⊢
    rw [exactDuration]
    exact exactSteps_duration finite

theorem exactSteps_durations : ∀ elements : List Element,
    List.Forall₂ (fun d n => d.Finite → d.exactSteps = n)
      (durations elements) (exactDurations elements)
  | [] => by
    rw [durations, exactDurations]
    exact .nil
  | element :: rest => by
    rw [durations, exactDurations]
    exact .cons exactSteps_duration (exactSteps_durations rest)

end

end Element

end PulseSequencer

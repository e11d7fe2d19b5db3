import PulseSequencer.Proofs.Duration.Overflow
import PulseSequencer.Proofs.Element.Emittable

/-!
# Projections keep the duration

However a projection regroups, merges, splits and multiplies, the exact duration stays what it was.
The computed duration is that number rounded once, unless a partial sum overflows. A projection is
summed up in another order than its element, and very close to the largest number the one order may
overflow where the other does not.

Results:
1. `Element.exactDuration_project`: a projection has the exact duration of the element.
2. `Element.finite_duration`, `Element.duration_spec`: durations up to `2 ^ 1019` seconds do not
   overflow.
3. `Element.project_keeps_duration`: the computed durations are equal unless that of the projection
   overflows, and below `2 ^ 1019` seconds they always are.
4. `Element.project_overflows`: the overflow does occur.
-/

namespace PulseSequencer

open Duration

namespace Element

/-! ## Exact durations -/

theorem exactDurations_eq_map (elements : List Element) :
    exactDurations elements = elements.map exactDuration := by
  induction elements with
  | nil => rfl
  | cons element rest ih => rw [exactDurations, ih, List.map_cons]

theorem exactDuration_longestDead :
    (timestamp .longestDead).exactDuration = Clock.maxDuration.steps := by
  rw [exactDuration, Timestamp.longestDead, exactSteps_ofSeconds]

theorem exactDuration_longestTimes {count : ℕ} (fits : count ≤ maxCount) :
    (longestTimes count).exactDuration = count * Clock.maxDuration.steps := by
  unfold longestTimes
  split
  · next one => rw [one, exactDuration_longestDead, Nat.cast_one, one_mul]
  · rw [exactDuration, exactDuration_longestDead, toNat_toUInt32 fits]

theorem exactDuration_deadTime {d : Duration} {element : Element} (deadTime : DeadTime d element) :
    element.exactDuration = d.exactSteps := by
  cases deadTime with
  | single duration _ => rw [exactDuration, duration]
  | loop _ fits exactly => rw [exactDuration_longestTimes fits, exactly]
  | split _ fits _ exactly =>
    rw [exactDuration, exactDurations_eq_map]
    simp [exactDuration_longestTimes fits, exactDuration, exactly]

theorem exactDuration_coalesce {first second merged : Timestamp}
    (found : first.coalesce second = some merged) :
    merged.duration.exactSteps = first.duration.exactSteps + second.duration.exactSteps := by
  obtain ⟨duration, _, _⟩ := coalesce_eq_some found
  obtain ⟨_, _, sum⟩ := add_spec (duration ▸ merged.finite)
  rw [duration, sum]

theorem sum_exactDuration_append (row : List Element) (element : Element) :
    ((append row element).map exactDuration).sum
      = (row.map exactDuration).sum + element.exactDuration := by
  refine append_induction (motive := fun row element result =>
    (result.map exactDuration).sum = (row.map exactDuration).sum + element.exactDuration)
    (fun row element => ?_) (fun found same => ?_) row element
  · rw [List.map_cons, List.sum_cons, add_comm]
  · rw [same, List.map_cons, List.sum_cons, exactDuration, exactDuration, exactDuration,
      exactDuration_coalesce found]
    ring

theorem sum_exactDuration_foldl_append (elements row : List Element) :
    ((elements.foldl append row).map exactDuration).sum
      = (row.map exactDuration).sum + (elements.map exactDuration).sum := by
  induction elements generalizing row with
  | nil => simp
  | cons element rest ih =>
    rw [List.foldl_cons, ih, sum_exactDuration_append, List.map_cons, List.sum_cons, add_assoc]

theorem sum_exactDuration_parts (element : Element) :
    ((parts element).map exactDuration).sum = element.exactDuration := by
  unfold parts
  split
  · rw [exactDuration, exactDurations_eq_map]
  · simp

/-- Flattening rows and merging neighbours keeps the exact duration. -/
theorem exactDuration_joined (elements : List Element) :
    (joined elements).exactDuration = (elements.map exactDuration).sum := by
  have flattened : ((elements.flatMap parts).map exactDuration).sum
      = (elements.map exactDuration).sum := by
    induction elements with
    | nil => rfl
    | cons element rest ih =>
      rw [List.flatMap_cons, List.map_append, List.sum_append, ih, sum_exactDuration_parts,
        List.map_cons, List.sum_cons]
  rw [joined, exactDuration, exactDurations_eq_map, List.map_reverse, List.sum_reverse,
    sum_exactDuration_foldl_append, flattened]
  simp

theorem exactDuration_repeatTimes (element : Element) (times : UInt32) :
    (element.repeatTimes times).exactDuration = times.toNat * element.exactDuration := by
  unfold repeatTimes
  split
  · next body inner =>
    split
    · next fits =>
      rw [exactDuration, exactDuration, toNat_mul_of_fits fits]
      push_cast
      ring
    · rw [exactDuration]
  · rw [exactDuration]

theorem exactDuration_collapse {element result : Element}
    (ok : dead element.duration = .ok result) : result.exactDuration = element.exactDuration := by
  obtain ⟨finite, deadTime⟩ := dead_eq_ok ok
  rw [exactDuration_deadTime deadTime, exactSteps_duration finite]

theorem exactDuration_steps (group : ChannelSet) : ProjectionSteps group
    fun element result => result.exactDuration = element.exactDuration where
  still _ ok := exactDuration_collapse ok
  collapse same _ ok := (exactDuration_collapse ok).trans same
  timestamp _ := rfl
  trigger := rfl
  sequence all := by
    rw [exactDuration_joined, exactDuration, exactDurations_eq_map]
    induction all with
    | nil => rfl
    | cons first _ ih => rw [List.map_cons, List.map_cons, List.sum_cons, List.sum_cons, first, ih]
  never ok := by
    obtain ⟨_, deadTime⟩ := dead_eq_ok ok
    rw [exactDuration_deadTime deadTime, exactSteps_zero, exactDuration]
    simp
  once same := by
    rw [exactDuration, same]
    simp
  repeated _ same := by rw [exactDuration_repeatTimes, same, exactDuration]
  subroutine same := by rw [exactDuration, exactDuration, same]

/-- A projection has the exact duration of the element it was made from. -/
theorem exactDuration_project {element result : Element} {group : ChannelSet}
    (ok : element.project group = .ok result) : result.exactDuration = element.exactDuration :=
  (exactDuration_steps group).project ok

/-! ## Computed durations -/

theorem exactDuration_child_le {child : Element} {children : List Element}
    (present : child ∈ children) : child.exactDuration ≤ (sequence children).exactDuration := by
  rw [exactDuration]
  refine List.single_le_sum (exactDurations_nonneg children) _ ?_
  rw [exactDurations_eq_map]
  exact List.mem_map_of_mem present

theorem exactDuration_body_le {body : Element} {times : UInt32} (nonzero : times ≠ 0) :
    body.exactDuration ≤ (repeated body times).exactDuration := by
  rw [exactDuration]
  refine le_mul_of_one_le_left (exactDuration_nonneg body) ?_
  have positive : 0 < times.toNat := Nat.pos_of_ne_zero fun zero =>
    nonzero (UInt32.toNat_inj.mp zero)
  exact_mod_cast positive

/-- A safe sum of finite durations is computed without an overflow. -/
theorem finite_sequence {children : List Element}
    (allFinite : ∀ d ∈ durations children, d.Finite)
    (small : (sequence children).exactDuration ≤ safe) : (sequence children).duration.Finite := by
  have same := map_exactSteps (exactSteps_durations children) allFinite
  rw [exactDuration] at small
  rw [duration, total]
  refine finite_total finite_zero allFinite exactSteps_zero.ge ?_ ?_
  · intro d present
    refine exactDurations_nonneg children _ ?_
    rw [← same]
    exact List.mem_map_of_mem present
  · rwa [same, exactSteps_zero, zero_add]

/-- A safe multiple of a finite duration is computed without an overflow. -/
theorem finite_repeated {body : Element} {times : UInt32} (finite : body.duration.Finite)
    (small : (repeated body times).exactDuration ≤ safe) :
    (repeated body times).duration.Finite := by
  have same := exactSteps_duration finite
  rw [exactDuration, mul_comm] at small
  rw [duration]
  exact finite_scale_of_safe finite (same ▸ exactDuration_nonneg body) (same ▸ small)

mutual

/-- Durations that are safe as a whole are computed without an overflow. -/
theorem finite_duration {valid : Timestamp → Prop} : ∀ {element : Element},
    element.Emittable valid → element.exactDuration ≤ safe → element.duration.Finite
  | .timestamp t, _, _ => t.finite
  | .trigger, _, _ => finite_zero
  | .sequence children, emittable, small => by
    refine finite_sequence (finite_durations emittable fun n present => ?_) small
    rw [exactDuration] at small
    exact (List.single_le_sum (exactDurations_nonneg children) n present).trans small
  | .repeated body times, emittable, small => by
    obtain ⟨nonzero, emittableBody⟩ := emittable
    exact finite_repeated
      (finite_duration emittableBody ((exactDuration_body_le nonzero).trans small)) small
  | .subroutine body, emittable, small => by
    rw [exactDuration] at small
    rw [duration]
    exact finite_duration emittable small

theorem finite_durations {valid : Timestamp → Prop} : ∀ {elements : List Element},
    EmittableAll valid elements → (∀ n ∈ exactDurations elements, n ≤ safe) →
    ∀ d ∈ durations elements, d.Finite
  | [], _, _ => by simp [durations]
  | element :: rest, emittable, small => by
    rw [exactDurations] at small
    obtain ⟨smallFirst, smallRest⟩ := List.forall_mem_cons.mp small
    rw [durations]
    exact List.forall_mem_cons.mpr
      ⟨finite_duration emittable.1 smallFirst, finite_durations emittable.2 smallRest⟩

end

theorem duration_spec {valid : Timestamp → Prop} {element : Element}
    (emittable : element.Emittable valid) (small : element.exactDuration ≤ safe) :
    element.duration.Finite ∧ element.duration.value.isFinite = true ∧
    element.duration.exactSteps = element.exactDuration := by
  have finite := finite_duration emittable small
  have exactly := exactSteps_duration finite
  rw [← exactly] at small
  exact ⟨finite, isFinite_value_of_safe finite (exactly ▸ exactDuration_nonneg element) small,
    exactly⟩

/-- Durations of the same length are equal where both are finite. -/
theorem duration_beq_iff {element other : Element}
    (same : element.exactDuration = other.exactDuration)
    (finite : other.duration.value.isFinite = true) :
    (element.duration == other.duration) = true ↔ element.duration.value.isFinite = true := by
  constructor
  · intro equal
    obtain ⟨_, same | ⟨zero, _⟩⟩ := Binary64.numEq_iff.mp equal
    · rwa [same]
    · obtain ⟨negative, isZero⟩ := Binary64.eq_signedZero_of_isZero zero
      rw [isZero]
      rfl
  · intro finiteElement
    refine beq_of_exactSteps finiteElement finite ?_
    rw [exactSteps_duration (finite_of_value finiteElement),
      exactSteps_duration (finite_of_value finite), same]

/-- A value below `2 ^ 1019` seconds belongs to a safe duration. -/
theorem exactDuration_le_safe {element : Element} (finite : element.duration.value.isFinite = true)
    (short : element.duration.value < Binary64.ofNat (2 ^ 1019)) :
    element.exactDuration ≤ safe := by
  rw [← exactSteps_duration (finite_of_value finite)]
  by_contra longer
  have rounded := (rounded_value finite).le_of_le (Binary64.representable_two_pow 2093)
    (not_le.mp longer).le
  rw [Binary64.lt_iff_steps finite (by decide +kernel)] at short
  have bound : (Binary64.ofNat (2 ^ 1019)).steps = 2 ^ 2093 := by decide +kernel
  omega

/-- A projection lasts as long as the element. The computed durations are equal, unless that of the
projection overflows, which cannot happen below `2 ^ 1019` seconds. -/
theorem project_keeps_duration {element result : Element} {group : ChannelSet}
    (ok : element.project group = .ok result) (finite : element.duration.value.isFinite = true) :
    result.exactDuration = element.exactDuration ∧
    ((result.duration == element.duration) = true ↔ result.duration.value.isFinite = true) ∧
    (element.duration.value < Binary64.ofNat (2 ^ 1019) →
      (result.duration == element.duration) = true) := by
  have same := exactDuration_project ok
  have equal := duration_beq_iff same finite
  refine ⟨same, equal, fun short => equal.mpr ?_⟩
  have small := same.trans_le (exactDuration_le_safe finite short)
  exact (duration_spec (project_emittable ok) small).2.1

/-- A level that is set twice, with a long time of updates elsewhere in between. -/
def longPause : Element :=
  .sequence
    [.timestamp (.second (.ofLevel 0 (some true))),
     .repeated (.timestamp (.second (.ofLevel 1 (some true)))) 4000000,
     .timestamp (.second (.ofLevel 0 (some false)))]

theorem project_keeps_duration_longPause :
    ∃ result, longPause.project (.ofList [.digital 0]) = .ok result ∧
      result.exactDuration = longPause.exactDuration ∧
      (result.duration == longPause.duration) = true := by
  have isOk : (longPause.project (.ofList [.digital 0])).isOk = true := by decide +kernel
  obtain ⟨result, ok⟩ := Except.exists_ok_of_isOk isOk
  obtain ⟨exactly, _, equal⟩ := project_keeps_duration ok (by decide +kernel)
  exact ⟨result, ok, exactly, equal (by decide +kernel)⟩

/-! ## Overflow -/

/-- The element in many loops around one another. -/
def nested : ℕ → Element → Element
  | 0, element => element
  | depth + 1, element => .repeated (nested depth element) 0x80000000

theorem isRelevant_nested (depth : ℕ) (element : Element) (group : ChannelSet) :
    (nested depth element).isRelevant group = element.isRelevant group := by
  induction depth with
  | zero => rfl
  | succ depth ih => exact ih

/-- The counts of two such loops cannot be multiplied. -/
theorem repeatTimes_nested {element : Element}
    (single : ∀ body times, element ≠ .repeated body times) (depth : ℕ) :
    (nested depth element).repeatTimes 0x80000000 = nested (depth + 1) element := by
  cases depth with
  | zero =>
    rw [nested, nested, nested, repeatTimes.eq_2]
    exact single
  | succ depth =>
    rw [nested, repeatTimes, if_neg (by decide)]
    rfl

theorem project_nested {element result : Element} {group : ChannelSet}
    (ok : element.project group = .ok result) (relevant : element.isRelevant group = true)
    (relevantResult : result.isRelevant group = true)
    (single : ∀ body times, result ≠ .repeated body times) (depth : ℕ) :
    (nested depth element).project group = .ok (nested depth result) := by
  induction depth with
  | zero => exact ok
  | succ depth ih =>
    rw [project_eq, isRelevant_nested, if_pos relevant]
    rw [nested, reduce, if_neg (by decide), ih, Except.ok_bind, if_neg (by decide),
      repeatTimes_nested single, Except.pure_eq_ok, Except.ok_bind, isRelevant_nested,
      if_pos relevantResult]
    rfl

/-- Two small timestamps beside a large one. The small ones are below half a unit of the large one
together, but not the larger of them on its own. -/
def unevenRow : Element :=
  let on : UpdateMap := .ofLevel 0 (some true)
  let off : UpdateMap := .ofLevel 0 (some false)
  .sequence
    [.timestamp ⟨.ofSeconds (.ofBits 0x3968000000000000), on, by decide +kernel⟩,
     .sequence
      [.timestamp ⟨.ofSeconds (.ofBits 0x3cb7ffffffffffff), off, by decide +kernel⟩,
       .timestamp ⟨.ofSeconds (.ofBits 0x3ffffffffffffffe), on, by decide +kernel⟩]]

/-- Flattening the row changes the order of the sums. Repeated up to the largest number, the one
order overflows and the other does not. -/
theorem exists_overflow :
    (nested 33 unevenRow).duration.value.isFinite = true ∧
    ∃ result, (nested 33 unevenRow).project (.ofList [.digital 0]) = .ok result ∧
      result.duration.value = .nan := by
  refine ⟨by decide +kernel, ?_⟩
  have row : (unevenRow.project (.ofList [.digital 0])).toOption.map (fun result =>
      (result.isRelevant (.ofList [.digital 0]), result.parts.length,
        (nested 33 result).duration.value)) = some (true, 3, .nan) := by
    decide +kernel
  obtain ⟨result, ok⟩ := Except.exists_ok_of_isOk
    (show (unevenRow.project (.ofList [.digital 0])).isOk = true by decide +kernel)
  rw [ok] at row
  obtain ⟨relevant, length, isNan⟩ := by simpa using Option.some.inj row
  have single : ∀ body times, result ≠ .repeated body times := by
    rintro body times rfl
    cases length
  exact ⟨_, project_nested ok (by decide +kernel) relevant single 33, isNan⟩

theorem project_overflows :
    (nested 33 unevenRow).duration.value.isFinite = true ∧
    ∃ result, (nested 33 unevenRow).project (.ofList [.digital 0]) = .ok result ∧
      (result.duration == (nested 33 unevenRow).duration) = false := by
  obtain ⟨finite, result, ok, isNan⟩ := exists_overflow
  refine ⟨finite, result, ok, Bool.eq_false_iff.mpr fun equal => ?_⟩
  have finiteResult := (duration_beq_iff (exactDuration_project ok) finite).mp equal
  rw [isNan] at finiteResult
  cases finiteResult

end Element

end PulseSequencer

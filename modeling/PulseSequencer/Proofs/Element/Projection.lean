import PulseSequencer.Proofs.Element.Duration
import PulseSequencer.Proofs.Results
import PulseSequencer.Proofs.Update

/-!
# Steps of a projection

What a projection does to an element, step by step, so that a property of all projections is a
property of its steps.

Results:
1. `Element.dead_eq_ok`: dead time is one timestamp, or a loop over the longest one with a
   remainder.
2. `Element.ProjectionSteps.project`: a relation that every step establishes holds between an
   element and its projection.
3. `Element.append_induction`, `Element.forall_joined`: the same for rows that elements are put
   after.
4. `Element.isRelevant_sequence`: a row concerns a group if one of its elements does.
-/

namespace PulseSequencer

open Duration

/-! ## Dead time -/

/-- The longest timestamp `count` times over. -/
def Element.longestTimes (count : ℕ) : Element :=
  if count = 1 then .timestamp .longestDead else .repeated (.timestamp .longestDead) count.toUInt32

/-- The elements that stand for dead time of a duration. -/
inductive Element.DeadTime (d : Duration) : Element → Prop
  | single {t : Timestamp} (duration : t.duration = d) (still : t.updates = .empty) :
      DeadTime d (.timestamp t)
  | loop {count : ℕ} (positive : 0 < count) (fits : count ≤ maxCount)
      (exactly : d.exactSteps = count * Clock.maxDuration.steps) : DeadTime d (longestTimes count)
  | split {count : ℕ} {t : Timestamp} (positive : 0 < count) (fits : count ≤ maxCount)
      (still : t.updates = .empty)
      (exactly : d.exactSteps = count * Clock.maxDuration.steps + t.duration.exactSteps) :
      DeadTime d (.sequence [longestTimes count, .timestamp t])

namespace Element

theorem toNat_toUInt32 {count : ℕ} (fits : count ≤ maxCount) : count.toUInt32.toNat = count := by
  unfold maxCount at fits
  exact UInt32.toNat_ofNat_of_lt' (show count < 2 ^ 32 by omega)

theorem compare_eq_gt {x y : Binary64} (greater : Seconds.compare x y = .gt) : y < x := by
  unfold Seconds.compare at greater
  split at greater
  · cases greater
  · split at greater
    · assumption
    · cases greater

/-- A duration above the longest timestamp contains that timestamp at least once. -/
theorem count_pos {d rest : Duration} {count : ℕ} (greater : Clock.maxDuration < d.value)
    (found : d.divide? Clock.maxDuration = some (count, rest))
    (within : Binary64.Within 0 Clock.maxDuration rest.value) : 0 < count := by
  have finite := isFinite_of_divide found
  have finiteRest := isFinite_of_within within
  obtain ⟨_, sum⟩ := (divide?_eq_some found).exactSteps_eq (finite_of_value finiteRest)
  rw [Nat.pos_iff_ne_zero]
  rintro rfl
  -- With no part taken away the remainder is the duration itself, which is too long.
  have same := value_steps_eq finite finiteRest (by simpa using sum)
  have below := (Binary64.le_iff_steps finiteRest (by decide +kernel)).mp within.2
  have above := (Binary64.lt_iff_steps (by decide +kernel) finite).mp greater
  omega

theorem within_of_isZero {x : Binary64} (zero : x.isZero = true) :
    Binary64.Within 0 Clock.maxDuration x := by
  obtain ⟨negative, rfl⟩ := Binary64.eq_signedZero_of_isZero zero
  cases negative <;> decide +kernel

theorem dead_eq_ok {d : Duration} {element : Element} (ok : dead d = .ok element) :
    d.Finite ∧ DeadTime d element := by
  unfold dead at ok
  split at ok
  · next greater =>
    have greater := compare_eq_gt greater
    split at ok
    · cases ok
    · next count rest found =>
      have remains := divide?_eq_some found
      dsimp only at ok
      split at ok
      · next zero =>
        cases ok
        have within := within_of_isZero zero
        have finiteRest := isFinite_of_within within
        obtain ⟨finite, sum⟩ := remains.exactSteps_eq (finite_of_value finiteRest)
        rw [(isZero_iff finiteRest).mp zero, add_zero] at sum
        exact ⟨finite, .loop (count_pos greater found within) remains.fits sum⟩
      · obtain ⟨t, made, same⟩ := Except.bind_eq_ok_iff.mp ok
        obtain ⟨duration, still⟩ := Timestamp.dead_eq_ok made
        cases same
        have within := t.within
        rw [duration] at within
        obtain ⟨finite, sum⟩ := remains.exactSteps_eq (duration ▸ t.finite)
        rw [← duration] at sum
        exact ⟨finite, .split (count_pos greater found within) remains.fits still sum⟩
  · obtain ⟨t, made, same⟩ := Except.bind_eq_ok_iff.mp ok
    obtain ⟨duration, still⟩ := Timestamp.dead_eq_ok made
    cases same
    exact ⟨duration ▸ t.finite, .single duration still⟩

/-! ## Merged timestamps -/

/-- Timestamps merge if their updates are equal, or if the first one takes no time. -/
theorem coalesce_eq_some {first second merged : Timestamp}
    (found : first.coalesce second = some merged) :
    merged.duration = first.duration + second.duration ∧
    merged.updates = first.updates.merge second.updates ∧
    ((first.updates == second.updates) = true ∨ first.duration.isZero = true) := by
  unfold Timestamp.coalesce at found
  split at found
  · cases found
  · next mergeable =>
    dsimp only at found
    split at found
    · cases found
      refine ⟨rfl, rfl, ?_⟩
      by_cases equal : (first.updates == second.updates) = true
      · exact .inl equal
      · exact .inr (by simpa [bne, equal] using mergeable)
    · cases found

/-- An element is put after a row, or two neighbours give way to one timestamp that is put after
what stands before them. -/
theorem append_induction {motive : List Element → Element → List Element → Prop}
    (simply : ∀ row element, motive row element (element :: row))
    (merge : ∀ {first second merged before row}, first.coalesce second = some merged →
      motive before (.timestamp merged) row →
      motive (.timestamp first :: before) (.timestamp second) row)
    (row : List Element) (element : Element) : motive row element (append row element) := by
  fun_induction append row element with
  | case1 first before second merged found ih => exact merge found ih
  | case2 first before second _ => exact simply _ _
  | case3 row element => exact simply row element

section

variable {holds : Element → Prop}
  (merge : ∀ {first second merged}, first.coalesce second = some merged →
    holds (.timestamp first) → holds (.timestamp second) → holds (.timestamp merged))

include merge

theorem forall_append {row : List Element} {element : Element} (all : ∀ e ∈ row, holds e)
    (last : holds element) : ∀ e ∈ append row element, holds e := by
  revert all last
  refine append_induction (motive := fun row element result =>
    (∀ e ∈ row, holds e) → holds element → ∀ e ∈ result, holds e) ?_ ?_ row element
  · intro row element all last
    exact List.forall_mem_cons.mpr ⟨last, all⟩
  · intro first second merged before row found ih all last
    obtain ⟨holdsFirst, others⟩ := List.forall_mem_cons.mp all
    exact ih others (merge found holdsFirst last)

theorem forall_foldl_append {elements row : List Element} (all : ∀ e ∈ row, holds e)
    (allRest : ∀ e ∈ elements, holds e) : ∀ e ∈ elements.foldl append row, holds e := by
  induction elements generalizing row with
  | nil => exact all
  | cons element rest ih =>
    obtain ⟨first, later⟩ := List.forall_mem_cons.mp allRest
    exact ih (forall_append merge all first) later

/-- What holds of the parts of several elements, and of merged timestamps with them, holds of the
elements of the row that is made of them. -/
theorem forall_joined {elements : List Element}
    (all : ∀ element ∈ elements, ∀ part ∈ parts element, holds part) :
    ∀ element ∈ parts (joined elements), holds element := by
  intro element present
  refine forall_foldl_append merge (by simp) (fun part inParts => ?_) element
    (List.mem_reverse.mp present)
  obtain ⟨element, inElements, isPart⟩ := List.mem_flatMap.mp inParts
  exact all element inElements part isPart

end

/-! ## Nested loops -/

/-- Where the product of two counts fits, one loop runs as often as the two. -/
theorem toNat_mul_of_fits {inner times : UInt32} (fits : inner.toNat * times.toNat < 1 <<< 32) :
    (inner * times).toNat = inner.toNat * times.toNat := by
  rw [UInt32.toNat_mul]
  exact Nat.mod_eq_of_lt fits

/-! ## Relevance -/

section

variable {group : ChannelSet}

theorem mem_allChannels {elements : List Element} {channel : Channel} :
    channel ∈ allChannels elements ↔ ∃ element ∈ elements, channel ∈ element.channels := by
  induction elements with
  | nil => simp [allChannels]
  | cons element rest ih => simp [allChannels, ih]

theorem anyTrigger_iff {elements : List Element} :
    anyTrigger elements = true ↔ ∃ element ∈ elements, element.hasTrigger = true := by
  induction elements with
  | nil => simp [anyTrigger]
  | cons element rest ih => simp [anyTrigger, ih]

theorem isRelevant_iff {element : Element} : element.isRelevant group = true ↔
    element.hasTrigger = true ∨ ∃ channel ∈ element.channels, channel ∈ group := by
  rw [isRelevant, Bool.or_eq_true, Bool.not_eq_true', Bool.eq_false_iff, Ne,
    ChannelSet.isEmpty_iff]
  simp

theorem isRelevant_sequence {children : List Element} :
    (sequence children).isRelevant group = true ↔
      ∃ child ∈ children, child.isRelevant group = true := by
  simp only [isRelevant_iff, hasTrigger, channels, anyTrigger_iff, mem_allChannels]
  constructor
  · rintro (⟨child, present, trigger⟩ | ⟨channel, ⟨child, present, updated⟩, inGroup⟩)
    · exact ⟨child, present, .inl trigger⟩
    · exact ⟨child, present, .inr ⟨channel, updated, inGroup⟩⟩
  · rintro ⟨child, present, trigger | ⟨channel, updated, inGroup⟩⟩
    · exact .inl ⟨child, present, trigger⟩
    · exact .inr ⟨channel, ⟨child, present, updated⟩, inGroup⟩

/-! ## Steps of a projection -/

/-- What is left of an element that concerns the group, before it is looked at again. -/
def reduce (element : Element) (group : ChannelSet) : Except SequenceError Element :=
  match element with
  | .timestamp t => pure (.timestamp (t.restrict group))
  | .trigger => pure .trigger
  | .sequence children => do pure (joined (← projectAll children group))
  | .parallel _ => throw .parallelProjection
  | .repeated body times =>
    if times = 0 then dead .zero
    else do
      let body ← body.project group
      pure (if times = 1 then body else body.repeatTimes times)
  | .subroutine body => do pure (.subroutine (← body.project group))

theorem project_eq (element : Element) : element.project group =
    if element.isRelevant group then do
      let projected ← element.reduce group
      if projected.isRelevant group then pure projected else dead projected.duration
    else dead element.duration := by
  cases element <;> rw [project, reduce] <;> dsimp only
  case repeated body times =>
    by_cases zero : times = 0
    · rw [if_pos zero, if_pos zero]
    · rw [if_neg zero, if_neg zero, bind_assoc]
  all_goals simp only [bind_assoc]

/-- A relation between elements and projections that each step of a projection establishes. -/
structure ProjectionSteps (group : ChannelSet) (related : Element → Element → Prop) : Prop where
  still : ∀ {element result}, element.isRelevant group = false →
    dead element.duration = .ok result → related element result
  collapse : ∀ {element projected result}, related element projected →
    projected.isRelevant group = false → dead projected.duration = .ok result →
    related element result
  timestamp : ∀ t, related (.timestamp t) (.timestamp (t.restrict group))
  trigger : related .trigger .trigger
  sequence : ∀ {children results}, List.Forall₂ related children results →
    related (.sequence children) (joined results)
  never : ∀ {body result}, dead .zero = .ok result → related (.repeated body 0) result
  once : ∀ {body result}, related body result → related (.repeated body 1) result
  repeated : ∀ {body result times}, times ≠ 0 → related body result →
    related (.repeated body times) (result.repeatTimes times)
  subroutine : ∀ {body result}, related body result →
    related (.subroutine body) (.subroutine result)

/-- What was made from elements one by one has an element that it was made from. -/
theorem exists_related {related : Element → Element → Prop} {elements results : List Element}
    (all : List.Forall₂ related elements results) {result : Element} (present : result ∈ results) :
    ∃ element ∈ elements, related element result := by
  induction all with
  | nil => cases present
  | cons first _ ih =>
    rcases List.mem_cons.mp present with rfl | later
    · exact ⟨_, List.mem_cons_self, first⟩
    · obtain ⟨element, inRest, isRelated⟩ := ih later
      exact ⟨element, List.mem_cons_of_mem _ inRest, isRelated⟩

namespace ProjectionSteps

variable {related : Element → Element → Prop}

theorem settle (steps : ProjectionSteps group related) {element result : Element}
    (reduced : ∀ {projected}, element.reduce group = .ok projected → related element projected)
    (ok : element.project group = .ok result) : related element result := by
  rw [project_eq] at ok
  split at ok
  · obtain ⟨projected, parts, ok⟩ := Except.bind_eq_ok_iff.mp ok
    split at ok
    · cases ok
      exact reduced parts
    · next irrelevant =>
      exact steps.collapse (reduced parts) (Bool.eq_false_iff.mpr irrelevant) ok
  · next irrelevant => exact steps.still (Bool.eq_false_iff.mpr irrelevant) ok

mutual

/-- What every step establishes holds between an element and its projection. -/
theorem project (steps : ProjectionSteps group related) :
    ∀ {element result : Element}, element.project group = .ok result → related element result
  | .timestamp t, _ => steps.settle fun
    | rfl => steps.timestamp t
  | .trigger, _ => steps.settle fun
    | rfl => steps.trigger
  | .sequence children, _ => steps.settle fun parts => by
    obtain ⟨results, all, same⟩ := Except.bind_eq_ok_iff.mp parts
    cases same
    exact steps.sequence (steps.projectAll all)
  | .parallel _, _ => steps.settle fun parts => by cases parts
  | .repeated body times, _ => steps.settle fun parts => by
    rw [reduce] at parts
    split at parts
    · next zero =>
      rw [zero]
      exact steps.never parts
    · next nonzero =>
      obtain ⟨result, ok, same⟩ := Except.bind_eq_ok_iff.mp parts
      have inner := steps.project ok
      cases same
      split
      · next one =>
        rw [one]
        exact steps.once inner
      · exact steps.repeated nonzero inner
  | .subroutine body, _ => steps.settle fun parts => by
    obtain ⟨result, ok, same⟩ := Except.bind_eq_ok_iff.mp parts
    cases same
    exact steps.subroutine (steps.project ok)

theorem projectAll (steps : ProjectionSteps group related) :
    ∀ {elements results : List Element}, Element.projectAll elements group = .ok results →
      List.Forall₂ related elements results
  | [], results, ok => by
    rw [Element.projectAll] at ok
    cases ok
    exact .nil
  | element :: rest, results, ok => by
    rw [Element.projectAll] at ok
    obtain ⟨later, all, ok⟩ := Except.bind_eq_ok_iff.mp ok
    obtain ⟨result, first, same⟩ := Except.bind_eq_ok_iff.mp ok
    cases same
    exact .cons (steps.project first) (steps.projectAll all)

end

end ProjectionSteps

end

end Element

end PulseSequencer

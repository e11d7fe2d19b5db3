import PulseSequencer.Proofs.Element.History
import PulseSequencer.Proofs.Element.Projection

/-!
# The output of a projection

A projection is not the element it was made from: dead time collapses, rows are flattened, updates
are carried forward and timestamps merge. Its outputs cannot be told from those of the element.

Results:
1. `Element.play_sequence`, `Element.play_repeated`: an element plays what its parts play, also
   where it does not concern the group.
2. `Element.play_coalesce`, `Element.play_joined`: merging neighbours does not change what is
   played.
3. `Element.play_dead`: dead time holds the outputs for exactly its duration.
4. `Element.project_plays`: a projection has the history of the element, from any state on.
-/

namespace PulseSequencer

open Duration Playing

namespace Element

/-! ## What an element plays -/

mutual

/-- What the channels of a group show while an element is played. An element without effect on the
group holds the outputs for its exact duration, and so do elements side by side, which have no
projection otherwise. -/
def play (group : ChannelSet) (element : Element) : Playing :=
  if element.isRelevant group then
    match element with
    | .timestamp t => (write (t.updates.restrict group)).andThen (hold t.duration.exactSteps)
    | .trigger => wait
    | .sequence children => playAll group children
    | .parallel children => hold (exactDuration (.parallel children))
    | .repeated body times => (play group body).times times.toNat
    | .subroutine body => play group body
  else hold element.exactDuration

def playAll (group : ChannelSet) (elements : List Element) : Playing :=
  match elements with
  | [] => idle
  | element :: rest => (play group element).andThen (playAll group rest)

end

section

variable {group : ChannelSet}

theorem play_of_irrelevant {element : Element} (irrelevant : element.isRelevant group = false) :
    play group element = hold element.exactDuration := by
  rw [play.eq_def, if_neg (by rw [irrelevant]; exact Bool.false_ne_true)]

theorem playAll_append (before after : List Element) :
    playAll group (before ++ after) = (playAll group before).andThen (playAll group after) := by
  induction before with
  | nil => rw [List.nil_append, playAll, idle_andThen]
  | cons element before ih => rw [List.cons_append, playAll, ih, playAll, andThen_assoc]

@[simp] theorem playAll_singleton (element : Element) :
    playAll group [element] = play group element := by
  rw [playAll, playAll, andThen_idle]

/-! ## Decomposition -/

theorem play_timestamp (t : Timestamp) : play group (.timestamp t)
    = (write (t.updates.restrict group)).andThen (hold t.duration.exactSteps) := by
  rw [play]
  split
  · rfl
  · next irrelevant =>
    have foreign : (t.updates.channels ∩ group).isEmpty = true := by
      simpa [isRelevant, hasTrigger, channels, Timestamp.channels] using irrelevant
    rw [UpdateMap.restrict_eq_empty foreign, write_empty, idle_andThen, exactDuration]

theorem play_trigger : play group .trigger = wait := by
  rw [play, if_pos (show trigger.isRelevant group = true by rw [isRelevant, hasTrigger]; rfl)]

theorem play_subroutine (body : Element) : play group (.subroutine body) = play group body := by
  rw [play]
  split
  · rfl
  · next irrelevant =>
    rw [exactDuration, play_of_irrelevant]
    exact Bool.eq_false_iff.mpr irrelevant

/-- A row without effect on the group holds the outputs for the sum of its durations. -/
theorem playAll_of_irrelevant {elements : List Element}
    (irrelevant : ∀ element ∈ elements, element.isRelevant group = false) :
    (playAll group elements).Same (hold (exactDurations elements).sum) := by
  induction elements with
  | nil => exact hold_zero.symm
  | cons element rest ih =>
    obtain ⟨first, later⟩ := List.forall_mem_cons.mp irrelevant
    rw [playAll, play_of_irrelevant first, exactDurations, List.sum_cons]
    exact ((Playing.Same.hold _).andThen (ih later)).trans (hold_andThen_hold
      (exactDuration_nonneg element) (List.sum_nonneg (exactDurations_nonneg rest)))

mutual

/-- Elements write to equal states what they write to a state. -/
theorem play_refl : ∀ element : Element, (play group element).Same (play group element)
  | .timestamp t => by
    rw [play_timestamp]
    exact (Same.write BEq.rfl).andThen (.hold _)
  | .trigger => by
    rw [play_trigger]
    exact .wait
  | .sequence children => by
    rw [play]
    split
    · exact playAll_refl children
    · exact .hold _
  | .parallel children => by
    rw [play]
    split <;> exact .hold _
  | .repeated body times => by
    rw [play]
    split
    · exact (play_refl body).times _
    · exact .hold _
  | .subroutine body => by
    rw [play_subroutine]
    exact play_refl body

theorem playAll_refl : ∀ elements : List Element,
    (playAll group elements).Same (playAll group elements)
  | [] => by
    rw [playAll]
    exact .idle
  | element :: rest => by
    rw [playAll]
    exact (play_refl element).andThen (playAll_refl rest)

end

theorem play_sequence (children : List Element) :
    (play group (.sequence children)).Same (playAll group children) := by
  by_cases relevant : (sequence children).isRelevant group = true
  · rw [play, if_pos relevant]
    exact playAll_refl children
  · rw [play_of_irrelevant (Bool.eq_false_iff.mpr relevant), exactDuration]
    refine (playAll_of_irrelevant fun child present => ?_).symm
    refine Bool.eq_false_iff.mpr fun effect => relevant ?_
    exact isRelevant_sequence.mpr ⟨child, present, effect⟩

theorem play_repeated (body : Element) (times : UInt32) :
    (play group (.repeated body times)).Same ((play group body).times times.toNat) := by
  by_cases relevant : (repeated body times).isRelevant group = true
  · rw [play, if_pos relevant]
    exact (play_refl body).times _
  · rw [play_of_irrelevant (Bool.eq_false_iff.mpr relevant), exactDuration,
      show play group body = _ from play_of_irrelevant (Bool.eq_false_iff.mpr relevant)]
    exact (hold_times (exactDuration_nonneg body) _).symm

/-! ## Merging neighbours -/

/-- A merged timestamp shows what the two timestamps show one after the other. -/
theorem play_coalesce {first second merged : Timestamp}
    (found : first.coalesce second = some merged) :
    ((play group (.timestamp first)).andThen (play group (.timestamp second))).Same
      (play group (.timestamp merged)) := by
  obtain ⟨duration, updates, mergeable⟩ := coalesce_eq_some found
  obtain ⟨_, _, sum⟩ := add_spec (duration ▸ merged.finite)
  rw [play_timestamp, play_timestamp, play_timestamp, duration, updates, sum,
    UpdateMap.restrict_merge]
  rcases mergeable with equal | zero
  · exact write_hold_again (UpdateMap.restrict_congr equal group)
      first.exactSteps_nonneg second.exactSteps_nonneg
  · rw [(isZero_iff first.isFinite_value).mp zero, zero_add, ← write_andThen_write,
      andThen_assoc, andThen_assoc]
    refine (Same.write BEq.rfl).andThen (hold_zero_andThen ?_)
    exact (Same.write BEq.rfl).andThen (.hold _)

/-- Putting an element after a row, which is held last element first, plays it after the row. -/
theorem play_append (row : List Element) (element : Element) :
    (playAll group (append row element).reverse).Same
      ((playAll group row.reverse).andThen (play group element)) := by
  refine append_induction (motive := fun row element result =>
    (playAll group result.reverse).Same ((playAll group row.reverse).andThen (play group element)))
    (fun row element => ?_) (fun found same => ?_) row element
  · rw [List.reverse_cons, playAll_append, playAll_singleton]
    exact (playAll_refl _).andThen (play_refl element)
  · rw [List.reverse_cons, playAll_append, playAll_singleton, andThen_assoc]
    exact same.trans ((playAll_refl _).andThen (play_coalesce found).symm)

theorem play_foldl_append (elements row : List Element) :
    (playAll group (elements.foldl append row).reverse).Same
      ((playAll group row.reverse).andThen (playAll group elements)) := by
  induction elements generalizing row with
  | nil =>
    rw [List.foldl_nil, playAll, andThen_idle]
    exact playAll_refl _
  | cons element rest ih =>
    rw [List.foldl_cons, playAll, ← andThen_assoc]
    exact (ih (append row element)).trans ((play_append row element).andThen (playAll_refl rest))

theorem play_parts (element : Element) :
    (playAll group (parts element)).Same (play group element) := by
  unfold parts
  split
  · exact (play_sequence _).symm
  · rw [playAll_singleton]
    exact play_refl element

theorem play_flatMap_parts (elements : List Element) :
    (playAll group (elements.flatMap parts)).Same (playAll group elements) := by
  induction elements with
  | nil => exact .idle
  | cons element rest ih =>
    rw [List.flatMap_cons, playAll_append, playAll]
    exact (play_parts element).andThen ih

/-- Flattening rows and merging neighbours does not change what is played. -/
theorem play_joined (elements : List Element) :
    (play group (joined elements)).Same (playAll group elements) := by
  have folded : (playAll group ((elements.flatMap parts).foldl append []).reverse).Same _ :=
    play_foldl_append (elements.flatMap parts) []
  rw [List.reverse_nil, playAll, idle_andThen] at folded
  exact (play_sequence _).trans (folded.trans (play_flatMap_parts elements))

theorem play_repeatTimes (element : Element) (times : UInt32) :
    (play group (element.repeatTimes times)).Same ((play group element).times times.toNat) := by
  unfold repeatTimes
  split
  · next body inner =>
    split
    · next fits =>
      refine (play_repeated body (inner * times)).trans ?_
      rw [toNat_mul_of_fits fits, times_mul]
      exact ((play_repeated body inner).times _).symm
    · exact play_repeated _ times
  · exact play_repeated element times

/-! ## Dead time -/

theorem play_of_still {t : Timestamp} (still : t.updates = .empty) :
    play group (.timestamp t) = hold t.duration.exactSteps := by
  have nothing : UpdateMap.empty.restrict group = .empty :=
    UpdateMap.eq_of_get? fun channel => by simp
  rw [play_timestamp, still, nothing, write_empty, idle_andThen]

theorem play_longestDead :
    play group (.timestamp .longestDead) = hold Clock.maxDuration.steps := by
  rw [play_of_still rfl, Timestamp.longestDead, exactSteps_ofSeconds]

theorem maxDuration_nonneg : 0 ≤ Clock.maxDuration.steps := by
  have nonneg := Timestamp.longestDead.exactSteps_nonneg
  rwa [Timestamp.longestDead, exactSteps_ofSeconds] at nonneg

theorem play_longestTimes {count : ℕ} (fits : count ≤ maxCount) :
    (play group (longestTimes count)).Same (hold (count * Clock.maxDuration.steps)) := by
  unfold longestTimes
  split
  · next one =>
    rw [one, play_longestDead, Nat.cast_one, one_mul]
    exact .hold _
  · refine (play_repeated _ _).trans ?_
    rw [play_longestDead, toNat_toUInt32 fits]
    exact hold_times maxDuration_nonneg count

/-- Dead time holds the outputs for exactly its duration. -/
theorem play_dead {d : Duration} {element : Element} (dead : DeadTime d element) :
    (play group element).Same (hold d.exactSteps) := by
  cases dead with
  | single duration still =>
    rw [play_of_still still, duration]
    exact .hold _
  | loop _ fits exactly =>
    rw [exactly]
    exact play_longestTimes fits
  | @split count t _ fits still exactly =>
    refine (play_sequence _).trans ?_
    rw [playAll, playAll_singleton, play_of_still still, exactly]
    exact ((play_longestTimes fits).andThen (.hold _)).trans (hold_andThen_hold
      (mul_nonneg (Int.natCast_nonneg count) maxDuration_nonneg) t.exactSteps_nonneg)

/-- What has no effect on the group may be replaced by dead time. -/
theorem play_collapse {element result : Element} (irrelevant : element.isRelevant group = false)
    (ok : dead element.duration = .ok result) :
    (play group element).Same (play group result) := by
  obtain ⟨finite, deadTime⟩ := dead_eq_ok ok
  rw [play_of_irrelevant irrelevant, ← exactSteps_duration finite]
  exact (play_dead deadTime).symm

/-! ## Projections -/

theorem playAll_congr {elements results : List Element}
    (same : List.Forall₂ (fun element result => (play group element).Same (play group result))
      elements results) :
    (playAll group elements).Same (playAll group results) := by
  induction same with
  | nil => exact playAll_refl []
  | cons first _ ih =>
    rw [playAll, playAll]
    exact first.andThen ih

/-- Each step of a projection leaves the output as it is. -/
theorem playsSame_steps : ProjectionSteps group
    fun element result => (play group element).Same (play group result) where
  still := play_collapse
  collapse same irrelevant ok := same.trans (play_collapse irrelevant ok)
  timestamp t := by
    rw [play_timestamp, play_timestamp, Timestamp.restrict, UpdateMap.restrict_restrict]
    exact (Same.write BEq.rfl).andThen (.hold _)
  trigger := play_refl .trigger
  sequence all := (play_sequence _).trans ((playAll_congr all).trans (play_joined _).symm)
  never ok := by
    obtain ⟨_, deadTime⟩ := dead_eq_ok ok
    exact (play_repeated _ 0).trans (hold_zero.symm.trans (play_dead deadTime).symm)
  once same := by
    refine (play_repeated _ 1).trans ?_
    rw [show (1 : UInt32).toNat = 1 from rfl, times_one]
    exact same
  repeated _ same := (play_repeated _ _).trans ((same.times _).trans (play_repeatTimes _ _).symm)
  subroutine same := by
    rw [play_subroutine, play_subroutine]
    exact same

/-- A projection has the history of the element it was made from, from any state on, and leaves the
outputs in the same state. -/
theorem project_plays {element result : Element} (ok : element.project group = .ok result)
    (state : UpdateMap) :
    Event.SameHistory (Event.normalize (play group element state).1)
      (Event.normalize (play group result state).1) ∧
    ((play group element state).2 == (play group result state).2) = true :=
  (playsSame_steps.project ok).history state

end

/-- A level that is set for no time of its own, then twice a second of updates elsewhere. -/
def carriedLevel : Element :=
  .sequence
    [.timestamp (.instant (.ofLevel 0 (some true))),
     .repeated (.timestamp (.second (.ofLevel 1 (some true)))) 2,
     .timestamp (.second (.ofLevel 0 (some false)))]

theorem project_plays_carriedLevel :
    ∃ result, carriedLevel.project (.ofList [.digital 0]) = .ok result ∧
      Event.SameHistory
        (Event.normalize (play (.ofList [.digital 0]) carriedLevel .empty).1)
        (Event.normalize (play (.ofList [.digital 0]) result .empty).1) ∧
      ((play (.ofList [.digital 0]) carriedLevel .empty).2
        == (play (.ofList [.digital 0]) result .empty).2) = true := by
  have isOk : (carriedLevel.project (.ofList [.digital 0])).isOk = true := by decide +kernel
  obtain ⟨result, ok⟩ := Except.exists_ok_of_isOk isOk
  exact ⟨result, ok, project_plays ok .empty⟩

end Element

end PulseSequencer

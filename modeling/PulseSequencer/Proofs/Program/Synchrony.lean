import PulseSequencer.Proofs.Element.Grid
import PulseSequencer.Proofs.Program.Playback

/-!
# Boards in step

The programs of two boards are made from the same element and last for the same time in seconds. In
ticks they need not agree: a duration is rounded to ticks after the projection, and where one board
plays two timestamps the other one may play their sum.

Results:
1. `tickField_records`: the tick field of an output word can be read back from what is played.
2. `Element.unrolled_induction`: what holds of single timestamps and their words, and of rows, holds
   of an element and its words.
3. `compileGroup_ticks_agree`: two boards differ by at most 9/16 of a tick for each timestamp that
   they play, and not at all if every timestamp lasts for a whole number of ticks.
4. `compileGroup_ticks_differ`: without that, boards do differ.
-/

namespace PulseSequencer

open Duration

/-! ## The tick field -/

/-- The 48 bits of the tick field in the data of one address. -/
def tickField (record : List (MemorySlot × UInt32)) : ℕ :=
  ((record.lookup .ticksLow).getD 0).toNat
    + 2 ^ 32 * (((record.lookup .ticksHigh).getD 0).toNat % 2 ^ 16)

/-- The ticks of everything that was played. -/
def Sequencer.ticks (s : Sequencer) : ℕ :=
  (s.played.map tickField).sum

/-- Bits from the sixteenth on leave the low half of a word alone. -/
theorem toNat_or_mod {a b : UInt32} (high : b.toNat % 2 ^ 16 = 0) :
    (a ||| b).toNat % 2 ^ 16 = a.toNat % 2 ^ 16 := by
  rw [UInt32.toNat_or, Nat.or_mod_two_pow, high, Nat.or_zero]

theorem toNat_shiftLeft_mod (a : UInt8) {position : UInt32} (inside : position.toNat < 32)
    (high : 16 ≤ position.toNat) : (a.toUInt32 <<< position).toNat % 2 ^ 16 = 0 := by
  rw [UInt32.toNat_shiftLeft, Nat.mod_eq_of_lt inside, Nat.shiftLeft_eq,
    Nat.mod_mod_of_dvd _ (Nat.pow_dvd_pow 2 (show 16 ≤ 32 by omega))]
  exact Nat.mod_eq_zero_of_dvd (Dvd.dvd.mul_left (Nat.pow_dvd_pow 2 high) _)

/-- Ticks that fit the field can be read back. -/
theorem tickField_records {word : OutputWord} (fits : word.ticks.toNat < 2 ^ 48) :
    tickField word.records = word.ticks.toNat := by
  have low : (word.data .ticksLow).toNat = word.ticks.toNat % 2 ^ 32 := UInt64.toNat_toUInt32 _
  have high : (word.data .ticksHigh).toNat % 2 ^ 16 = word.ticks.toNat / 2 ^ 32 := by
    -- The digital outputs and the trigger flag share the slot, above the sixteenth bit.
    rw [OutputWord.data, toNat_or_mod (by cases word.waitForTrigger <;> rfl),
      toNat_or_mod (toNat_shiftLeft_mod _ (by decide) (by decide)),
      toNat_or_mod (toNat_shiftLeft_mod _ (by decide) (by decide)), UInt64.toNat_toUInt32,
      UInt64.toNat_and, UInt64.toNat_shiftRight]
    show (word.ticks.toNat >>> 32 &&& 2 ^ 16 - 1) % 2 ^ 32 % 2 ^ 16 = _
    rw [Nat.and_two_pow_sub_one_eq_mod, Nat.shiftRight_eq_div_pow]
    omega
  show (word.data .ticksLow).toNat + 2 ^ 32 * ((word.data .ticksHigh).toNat % 2 ^ 16) = _
  rw [low, high]
  exact Nat.mod_add_div _ _

namespace OutputWord

variable {rf : Nat} {word result : OutputWord}

theorem ticks_apply {channel : Channel} {update : Update}
    (ok : word.apply rf channel update = .ok result) : result.ticks = word.ticks := by
  unfold apply at ok
  split at ok
  · split at ok <;> cases ok <;> rfl
  · split at ok
    · simp only [Except.bind_eq_ok_iff] at ok
      obtain ⟨_, _, _, _, _, _, same⟩ := ok
      cases same
      rfl
    · cases ok
  · cases ok

theorem ticks_foldlM {pairs : List (Channel × Update)}
    (ok : pairs.foldlM (fun word (channel, update) => word.apply rf channel update) word
      = .ok result) : result.ticks = word.ticks := by
  induction pairs generalizing word with
  | nil =>
    cases ok
    rfl
  | cons pair rest ih =>
    rw [List.foldlM_cons] at ok
    obtain ⟨next, applied, okRest⟩ := Except.bind_eq_ok_iff.mp ok
    exact (ih okRest).trans (ticks_apply applied)

/-- A word holds the ticks of the duration, whatever it updates. -/
theorem tickField_ofTimestamp {t : Timestamp} (ok : ofTimestamp t rf = .ok word) :
    Clock.ticks t.duration.value = .ok (tickField word.records) := by
  obtain ⟨k, fits, ticks, _⟩ := Clock.ticks_spec t.within
  have small : k < 2 ^ 48 := Nat.lt_of_le_of_lt fits (by decide)
  have same : word.ticks.toNat = k := by
    simp only [ofTimestamp, ticks] at ok
    rw [ticks_foldlM ok]
    exact UInt64.toNat_ofNat_of_lt' (Nat.lt_of_lt_of_le small (by decide))
  rw [ticks, tickField_records (same ▸ small), same]

end OutputWord

/-! ## Ticks of one timestamp -/

namespace Timestamp

variable {t : Timestamp}

/-- The exact duration may exceed the longest one by what the rounding hides, which is still less
than a tick. -/
theorem exactSteps_le (t : Timestamp) : t.duration.exactSteps ≤ 2 ^ 48 * Clock.tick.steps := by
  have longest : 2 ^ 53 * Clock.maxDuration.steps ≤ (2 ^ 53 - 1) * (2 ^ 48 * Clock.tick.steps) := by
    decide +kernel
  have below := (Binary64.le_iff_steps t.isFinite_value (by decide +kernel)).mp t.within.2
  have error := (rounded_value t.isFinite_value).two_pow_mul_error_le
  have distance := le_abs_self (t.duration.exactSteps - t.duration.value.steps)
  rw [abs_of_nonneg t.exactSteps_nonneg] at error
  omega

/-- The ticks of a timestamp are at most 9/16 of a tick away from its exact duration. -/
theorem abs_ticks_le {k : ℕ} (ticks : Clock.ticks t.duration.value = .ok k) :
    16 * |k * Clock.tick.steps - t.duration.exactSteps| ≤ 9 * Clock.tick.steps := by
  obtain ⟨l, _, found, near⟩ := Clock.ticks_spec t.within
  obtain rfl : l = k := Except.ok.inj (found.symm.trans ticks)
  -- To the 17/32 of the division comes 1/32 from rounding the sum of seconds to a number.
  have error := (rounded_value t.isFinite_value).two_pow_mul_error_le
  rw [abs_of_nonneg t.exactSteps_nonneg, abs_sub_comm] at error
  have le := t.exactSteps_le
  have triangle := abs_sub_le (l * Clock.tick.steps) t.duration.value.steps t.duration.exactSteps
  omega

/-- A whole number of ticks is counted as that number. -/
theorem near_ticks {k : ℕ} (ticks : Clock.ticks t.duration.value = .ok k) (onGrid : t.OnGrid) :
    Clock.Near t.duration.exactSteps k := by
  obtain ⟨l, near⟩ := onGrid
  have quarter := near.abs_le t.exactSteps_le
  have rounded := abs_ticks_le ticks
  have triangle :=
    abs_sub_le (k * Clock.tick.steps) t.duration.exactSteps (l * Clock.tick.steps)
  have tickPos := Clock.tick_pos
  obtain rfl : k = l := Clock.eq_of_distance (by omega)
  exact near

end Timestamp

/-! ## Ticks of an element -/

namespace Element

/-- A relation between exact durations and words that rows inherit from their elements. -/
structure AccumulatesWords (holds : ℤ → List OutputWord → Prop) : Prop where
  nil : holds 0 []
  append : ∀ {m n words others}, holds m words → holds n others → holds (m + n) (words ++ others)

theorem AccumulatesWords.replicate {holds : ℤ → List OutputWord → Prop}
    (accumulates : AccumulatesWords holds) {n : ℤ} {words : List OutputWord}
    (single : holds n words) (count : ℕ) :
    holds (count * n) (List.replicate count words).flatten := by
  induction count with
  | zero =>
    rw [Nat.cast_zero, zero_mul]
    exact accumulates.nil
  | succ count ih =>
    rw [List.replicate_succ, List.flatten_cons, Nat.cast_succ, add_one_mul, add_comm]
    exact accumulates.append single ih

section

variable {holds : ℤ → List OutputWord → Prop} {rf : Nat}

/-- The relation holds between a timestamp and its word. -/
def HoldsOfWord (holds : ℤ → List OutputWord → Prop) (rf : Nat) (t : Timestamp) : Prop :=
  ∀ word, OutputWord.ofTimestamp t rf = .ok word → holds t.duration.exactSteps [word]

mutual

theorem unrolled_induction (accumulates : AccumulatesWords holds) :
    ∀ {element : Element} {words : List OutputWord},
      (∀ t ∈ element.timestamps, HoldsOfWord holds rf t) → element.unrolled rf = some words →
      holds element.exactDuration words
  | .timestamp t, words, all, found => by
    rw [unrolled, Option.map_eq_some_iff] at found
    obtain ⟨word, ok, rfl⟩ := found
    rw [exactDuration]
    refine all t List.mem_cons_self word ?_
    cases same : OutputWord.ofTimestamp t rf with
    | error _ =>
      rw [same] at ok
      cases ok
    | ok _ =>
      rw [same] at ok
      cases ok
      rfl
  | .trigger, _, _, found => by cases found
  | .sequence children, _, all, found => by
    rw [exactDuration]
    exact unrolledAll_induction accumulates all found
  | .parallel _, _, _, found => by cases found
  | .repeated body times, _, all, found => by
    rw [unrolled, Option.map_eq_some_iff] at found
    obtain ⟨inner, foundInner, rfl⟩ := found
    rw [timestamps] at all
    rw [exactDuration]
    exact accumulates.replicate (unrolled_induction accumulates all foundInner) _
  | .subroutine body, _, all, found => by
    rw [timestamps] at all
    rw [exactDuration]
    exact unrolled_induction accumulates all found

theorem unrolledAll_induction (accumulates : AccumulatesWords holds) :
    ∀ {elements : List Element} {words : List OutputWord},
      (∀ t ∈ timestampsAll elements, HoldsOfWord holds rf t) →
      unrolledAll rf elements = some words → holds (exactDurations elements).sum words
  | [], _, _, found => by
    cases found
    exact accumulates.nil
  | element :: rest, words, all, found => by
    obtain ⟨allFirst, allRest⟩ := List.forall_mem_append.mp all
    simp only [unrolledAll, Option.bind_eq_bind, Option.bind_eq_some_iff] at found
    obtain ⟨first, foundFirst, others, foundRest, same⟩ := found
    cases same
    rw [exactDurations, List.sum_cons]
    exact accumulates.append (unrolled_induction accumulates allFirst foundFirst)
      (unrolledAll_induction accumulates allRest foundRest)

end

end

/-- The ticks of words in a row. -/
def totalTicks (words : List OutputWord) : ℕ :=
  (words.map fun word => tickField word.records).sum

theorem totalTicks_append (words others : List OutputWord) :
    totalTicks (words ++ others) = totalTicks words + totalTicks others := by
  simp [totalTicks]

theorem totalTicks_singleton (word : OutputWord) : totalTicks [word] = tickField word.records := by
  simp [totalTicks]

/-- Rounding errors add up. -/
theorem accumulates_error : AccumulatesWords fun d words =>
    16 * |totalTicks words * Clock.tick.steps - d| ≤ 9 * (words.length * Clock.tick.steps) where
  nil := by simp [totalTicks]
  append {m n words others} bound bound' := by
    have triangle := abs_add_le (totalTicks words * Clock.tick.steps - m)
      (totalTicks others * Clock.tick.steps - n)
    rw [totalTicks_append, List.length_append, Nat.cast_add, Nat.cast_add, add_mul, add_mul,
      add_sub_add_comm]
    omega

theorem accumulates_near : AccumulatesWords fun d words => Clock.Near d (totalTicks words) where
  nil := .zero
  append near near' := by
    rw [totalTicks_append]
    exact near.add near'

variable {element : Element} {rf : Nat} {words : List OutputWord}

/-- The ticks of an element are off by at most 9/16 of a tick for each word. -/
theorem abs_totalTicks_le (found : element.unrolled rf = some words) :
    16 * |totalTicks words * Clock.tick.steps - element.exactDuration|
      ≤ 9 * (words.length * Clock.tick.steps) := by
  refine unrolled_induction accumulates_error (fun t _ word ok => ?_) found
  have bound := Timestamp.abs_ticks_le (OutputWord.tickField_ofTimestamp ok)
  simpa [totalTicks_singleton] using bound

/-- Whole numbers of ticks add up to the whole duration. -/
theorem OnGrid.near_totalTicks (onGrid : element.OnGrid)
    (found : element.unrolled rf = some words) :
    Clock.Near element.exactDuration (totalTicks words) := by
  refine unrolled_induction accumulates_near (fun t present word ok => ?_) found
  have near := Timestamp.near_ticks (OutputWord.tickField_ofTimestamp ok) (onGrid t present)
  simpa [totalTicks_singleton] using near

end Element

/-! ## Programs -/

open Sequencer

/-- The program that the stages end in plays the ticks of the words of the projection. -/
theorem Stages.ticks {options : CompileOptions} {element : Element} {group : String}
    {channels : ChannelSet} {program : Program} {projected : Element} {rf top : Nat}
    {graph assigned : ProgramGraph} {layout : Layout}
    (stages : Stages options element group channels program projected rf top graph assigned layout)
    (registers : UInt16 → UInt32) :
    ∃ words final, projected.unrolled rf = some words ∧ Completes program registers final ∧
      final.ticks = Element.totalTicks words ∧ final.played.length = words.length := by
  obtain ⟨words, final, found, completes, played⟩ := stages.completes registers
  refine ⟨words, final, found, completes, ?_, ?_⟩
  · rw [Sequencer.ticks, played, List.map_map]
    rfl
  · rw [played, List.length_map]

/-- The ticks of a program, against the exact duration of the element. -/
theorem compileGroup_ticks {options : CompileOptions} {element : Element} {group : String}
    {channels : ChannelSet} {program : Program} {events : List LogEvent}
    (ok : compileGroup options element group channels = .ok (program, events))
    (registers : UInt16 → UInt32) :
    ∃ final, Completes program registers final ∧
      16 * |final.ticks * Clock.tick.steps - element.exactDuration|
        ≤ 9 * (final.played.length * Clock.tick.steps) ∧
      (element.OnGrid → element.exactDuration ≤ Clock.maxDuration.steps →
        Clock.Near element.exactDuration final.ticks) := by
  obtain ⟨projected, rf, top, graph, assigned, layout, stages⟩ := compileGroup_eq_ok ok
  obtain ⟨words, final, found, completes, ticks, length⟩ := stages.ticks registers
  rw [← Element.exactDuration_project stages.foundProjected]
  refine ⟨final, completes, ?_, fun onGrid le => ?_⟩
  · rw [ticks, length]
    exact Element.abs_totalTicks_le found
  · rw [Element.exactDuration_project stages.foundProjected] at le
    rw [ticks]
    exact (Element.onGrid_project stages.foundProjected onGrid le).near_totalTicks found

/-- The programs of two boards for the same element play about the same number of ticks, with at
most 9/16 of a tick of difference for each timestamp that one of them plays. If the timestamps of
the element last for whole ticks, and for no longer in all than one timestamp could hold, then both
programs play the same number of ticks. -/
theorem compileGroup_ticks_agree {options : CompileOptions} {element : Element}
    {group group' : String} {channels channels' : ChannelSet} {program program' : Program}
    {events events' : List LogEvent}
    (ok : compileGroup options element group channels = .ok (program, events))
    (ok' : compileGroup options element group' channels' = .ok (program', events'))
    (registers registers' : UInt16 → UInt32) :
    ∃ final final', Completes program registers final ∧ Completes program' registers' final' ∧
      16 * |(final.ticks : ℤ) - final'.ticks|
        ≤ 9 * (final.played.length + final'.played.length) ∧
      (element.OnGrid → element.exactDuration ≤ Clock.maxDuration.steps →
        final.ticks = final'.ticks) := by
  obtain ⟨final, completes, error, near⟩ := compileGroup_ticks ok registers
  obtain ⟨final', completes', error', near'⟩ := compileGroup_ticks ok' registers'
  refine ⟨final, final', completes, completes', ?_, fun onGrid le => ?_⟩
  · have triangle := abs_sub_le (final.ticks * Clock.tick.steps) element.exactDuration
      (final'.ticks * Clock.tick.steps)
    rw [abs_sub_comm element.exactDuration, ← sub_mul, abs_mul, abs_of_pos Clock.tick_pos]
      at triangle
    refine le_of_mul_le_mul_right ?_ Clock.tick_pos
    rw [mul_assoc, mul_assoc, add_mul]
    omega
  · have longest : Clock.maxDuration.steps ≤ 2 ^ 48 * Clock.tick.steps := by decide +kernel
    exact (near onGrid le).unique (near' onGrid le) (le.trans longest)

theorem compileGroup_ticks_agree_sharedSecond :
    ∃ program events program' events',
      compileGroup ⟨{ Settings.default with addressBits := 5 }, false⟩ sharedSecond "A"
        (.ofList [.rf 0, .digital 0]) = .ok (program, events) ∧
      compileGroup ⟨{ Settings.default with addressBits := 5 }, false⟩ sharedSecond "B"
        (.ofList [.rf 1, .digital 1]) = .ok (program', events') ∧
      sharedSecond.OnGrid ∧ sharedSecond.exactDuration ≤ Clock.maxDuration.steps ∧
      ∃ final final', Completes program (fun _ => 0) final ∧
        Completes program' (fun _ => 0) final' ∧
        16 * |(final.ticks : ℤ) - final'.ticks|
          ≤ 9 * (final.played.length + final'.played.length) ∧
        final.ticks = final'.ticks := by
  have isOk : (compileGroup ⟨{ Settings.default with addressBits := 5 }, false⟩ sharedSecond
      "A" (.ofList [.rf 0, .digital 0])).isOk = true := by
    decide +kernel
  have isOk' : (compileGroup ⟨{ Settings.default with addressBits := 5 }, false⟩ sharedSecond
      "B" (.ofList [.rf 1, .digital 1])).isOk = true := by
    decide +kernel
  obtain ⟨⟨program, events⟩, ok⟩ := Except.exists_ok_of_isOk isOk
  obtain ⟨⟨program', events'⟩, ok'⟩ := Except.exists_ok_of_isOk isOk'
  have second : (Timestamp.second (.ofLevel 0 (some true))).OnGrid := by
    refine ⟨153600000, ?_⟩
    unfold Clock.Near
    decide +kernel
  have onGrid : sharedSecond.OnGrid := by
    simpa [Element.OnGrid, sharedSecond, Element.timestamps, Element.timestampsAll] using second
  have le : sharedSecond.exactDuration ≤ Clock.maxDuration.steps := by decide +kernel
  obtain ⟨final, final', completes, completes', bound, same⟩ :=
    compileGroup_ticks_agree ok ok' (fun _ => 0) fun _ => 0
  exact ⟨program, events, program', events', ok, ok', onGrid, le, final, final', completes,
    completes', bound, same onGrid le⟩

/-- The ticks of an element on the board of a channel group, computed without its program. -/
def Element.ticksOn (element : Element) (group : String) (channels : ChannelSet) : Option ℕ := do
  let rf ← (rfOutput group channels).toOption
  let projected ← (element.project channels).toOption
  let words ← projected.unrolled rf
  return totalTicks words

theorem compileGroup_ticksOn {options : CompileOptions} {element : Element} {group : String}
    {channels : ChannelSet} {program : Program} {events : List LogEvent}
    (ok : compileGroup options element group channels = .ok (program, events))
    (registers : UInt16 → UInt32) :
    ∃ final, Completes program registers final ∧
      element.ticksOn group channels = some final.ticks := by
  obtain ⟨projected, rf, top, graph, assigned, layout, stages⟩ := compileGroup_eq_ok ok
  obtain ⟨words, final, found, completes, ticks, _⟩ := stages.ticks registers
  refine ⟨final, completes, ?_⟩
  rw [Element.ticksOn, stages.foundOutput, stages.foundProjected, ticks]
  show (projected.unrolled rf).bind (fun words => some (Element.totalTicks words)) = _
  rw [found]
  rfl

/-- Two pulses of one microsecond, which is 153.6 ticks. -/
def twoMicroseconds : Element :=
  let pulse (level : Bool) : Element :=
    .timestamp ⟨.ofSeconds (.ofBits 0x3eb0c6f7a0b5ed8d), .ofLevel 0 (some level),
      by cases level <;> decide +kernel⟩
  .sequence [pulse true, pulse false]

/-- The board that drives the pulses rounds each of them up, the other one rounds their sum. -/
theorem compileGroup_ticks_differ :
    ∃ program events program' events' final final',
      compileGroup ⟨.default, false⟩ twoMicroseconds "A" (.ofList [.rf 0, .digital 0])
        = .ok (program, events) ∧
      compileGroup ⟨.default, false⟩ twoMicroseconds "B" (.ofList [.rf 1, .digital 1])
        = .ok (program', events') ∧
      twoMicroseconds.hasTrigger = false ∧
      Completes program (fun _ => 0) final ∧ Completes program' (fun _ => 0) final' ∧
      final.ticks = 308 ∧ final'.ticks = 307 := by
  have isOk : (compileGroup ⟨.default, false⟩ twoMicroseconds "A"
      (.ofList [.rf 0, .digital 0])).isOk = true := by
    decide +kernel
  have isOk' : (compileGroup ⟨.default, false⟩ twoMicroseconds "B"
      (.ofList [.rf 1, .digital 1])).isOk = true := by
    decide +kernel
  obtain ⟨⟨program, events⟩, ok⟩ := Except.exists_ok_of_isOk isOk
  obtain ⟨⟨program', events'⟩, ok'⟩ := Except.exists_ok_of_isOk isOk'
  have ticks : twoMicroseconds.ticksOn "A" (.ofList [.rf 0, .digital 0]) = some 308 := by
    decide +kernel
  have ticks' : twoMicroseconds.ticksOn "B" (.ofList [.rf 1, .digital 1]) = some 307 := by
    decide +kernel
  obtain ⟨final, completes, same⟩ := compileGroup_ticksOn ok fun _ => 0
  obtain ⟨final', completes', same'⟩ := compileGroup_ticksOn ok' fun _ => 0
  exact ⟨program, events, program', events', final, final', ok, ok', rfl, completes, completes',
    Option.some.inj (same.symm.trans ticks), Option.some.inj (same'.symm.trans ticks')⟩

end PulseSequencer

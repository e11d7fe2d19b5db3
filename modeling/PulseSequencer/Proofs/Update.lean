import Mathlib.Data.Option.Basic
import PulseSequencer.OutputWord
import PulseSequencer.Proofs.Binary64.Equality
import PulseSequencer.Proofs.Channel
import PulseSequencer.Proofs.Results

/-!
# Equal updates

Updates are compared as numbers, so equal updates may still differ in the sign of a zero. The board
cannot tell them apart.

Results:
1. `UpdateMap.beq_iff`: update maps are equal if they hold equal updates for every channel.
2. `Update.Same` is an equivalence: no valid setting is NaN.
3. `OutputWord.ofTimestamp_congr`: equal timestamps have the same output word.
-/

namespace Option.Rel

variable {α : Type} {r : α → α → Prop}

theorem refl (refl : ∀ a, r a a) (x : Option α) : Option.Rel r x x := by
  cases x with
  | none => exact .none
  | some a => exact .some (refl a)

theorem symm (symm : ∀ {a b}, r a b → r b a) {x y : Option α} (same : Option.Rel r x y) :
    Option.Rel r y x := by
  cases same with
  | none => exact .none
  | some same => exact .some (symm same)

theorem trans (trans : ∀ {a b c}, r a b → r b c → r a c) {x y z : Option α}
    (before : Option.Rel r x y) (after : Option.Rel r y z) : Option.Rel r x z := by
  cases before with
  | none => exact after
  | some before =>
    cases after with
    | some after => exact .some (trans before after)

end Option.Rel

namespace PulseSequencer

/-! ## Settings and records -/

/-- Two settings that are both absent or the same number. -/
def SameSetting (first second : Option Binary64) : Prop :=
  Option.Rel Binary64.SameNumber first second

namespace SameSetting

variable {first second third : Option Binary64}

theorem refl (setting : Option Binary64) : SameSetting setting setting :=
  Option.Rel.refl .refl setting

theorem symm (same : SameSetting first second) : SameSetting second first :=
  Option.Rel.symm .symm same

theorem trans (before : SameSetting first second) (after : SameSetting second third) :
    SameSetting first third :=
  Option.Rel.trans .trans before after

end SameSetting

namespace AnalogUpdate

/-- Settings that are not NaN compare equal if they are the same. -/
theorem sameSetting_iff {first second : Option Binary64} (valid : first ≠ some .nan) :
    sameSetting first second = true ↔ SameSetting first second := by
  cases first with
  | none =>
    cases second with
    | none => exact ⟨fun _ => .none, fun _ => rfl⟩
    | some y => exact ⟨fun equal => (by cases equal), fun same => (by cases same)⟩
  | some x =>
    have notNan : x ≠ .nan := fun isNan => valid (congrArg some isNan)
    cases second with
    | none => exact ⟨fun equal => (by cases equal), fun same => (by cases same)⟩
    | some y =>
      show x.numEq y = true ↔ _
      rw [Binary64.numEq_iff]
      constructor
      · rintro ⟨_, same⟩
        exact .some same
      · rintro ⟨same⟩
        exact ⟨notNan, same⟩

theorem ne_nan_of_within {low high x : Binary64} (within : Binary64.Within low high x) :
    x ≠ .nan := by
  rintro rfl
  obtain ⟨above, _⟩ := within
  change Binary64.ble low .nan = true at above
  unfold Binary64.ble at above
  split at above
  · next found => cases found
  · cases above

theorem frequency_ne_nan (update : AnalogUpdate) : update.frequency ≠ some .nan := by
  intro isNan
  exact ne_nan_of_within (update.frequency_within .nan isNan) rfl

theorem phase_ne_nan (update : AnalogUpdate) : update.phase ≠ some .nan := by
  intro isNan
  cases update.phase_finite .nan isNan

theorem amplitude_ne_nan (update : AnalogUpdate) : update.amplitude ≠ some .nan := by
  intro isNan
  exact ne_nan_of_within (update.amplitude_within .nan isNan) rfl

theorem loOffset_ne_nan (update : AnalogUpdate) : update.loOffset ≠ .nan := by
  intro isNan
  have finite := update.loOffset_finite
  rw [isNan] at finite
  cases finite

theorem beq_iff {a b : AnalogUpdate} :
    (a == b) = true ↔ SameSetting a.frequency b.frequency ∧ SameSetting a.phase b.phase ∧
      SameSetting a.amplitude b.amplitude ∧ a.loOffset.SameNumber b.loOffset := by
  show (sameSetting a.frequency b.frequency && sameSetting a.phase b.phase
    && sameSetting a.amplitude b.amplitude && a.loOffset.numEq b.loOffset) = true ↔ _
  rw [Bool.and_eq_true, Bool.and_eq_true, Bool.and_eq_true, and_assoc, and_assoc,
    sameSetting_iff a.frequency_ne_nan, sameSetting_iff a.phase_ne_nan,
    sameSetting_iff a.amplitude_ne_nan, Binary64.numEq_iff, and_iff_right a.loOffset_ne_nan]

/-- Equal updates give the synthesizer the same frequency. -/
theorem intermediate_congr {a b : AnalogUpdate} (equal : (a == b) = true) :
    SameSetting a.intermediate b.intermediate := by
  obtain ⟨frequency, _, _, loOffset⟩ := beq_iff.mp equal
  unfold intermediate
  generalize a.frequency = first at frequency ⊢
  generalize b.frequency = second at frequency ⊢
  cases frequency with
  | none => exact .none
  | some same => exact .some (same.sub loOffset)

end AnalogUpdate

namespace Update

/-- The same record: of the same kind, with the same settings. -/
def Same : Update → Update → Prop
  | .analog a, .analog b => (a == b) = true
  | .digital a, .digital b => a = b
  | _, _ => False

theorem Same.refl (update : Update) : update.Same update := by
  cases update with
  | analog a => exact AnalogUpdate.beq_iff.mpr ⟨.refl _, .refl _, .refl _, .refl _⟩
  | digital d => rfl

theorem Same.symm {first second : Update} (same : first.Same second) : second.Same first := by
  cases first with
  | analog a =>
    cases second with
    | analog b =>
      obtain ⟨frequency, phase, amplitude, loOffset⟩ := AnalogUpdate.beq_iff.mp same
      exact AnalogUpdate.beq_iff.mpr
        ⟨frequency.symm, phase.symm, amplitude.symm, loOffset.symm⟩
    | digital b => exact same.elim
  | digital a =>
    cases second with
    | analog b => exact same.elim
    | digital b => exact Eq.symm same

theorem Same.trans {first second third : Update} (before : first.Same second)
    (after : second.Same third) : first.Same third := by
  cases first with
  | analog a =>
    cases second with
    | digital b => exact before.elim
    | analog b =>
      cases third with
      | digital c => exact after.elim
      | analog c =>
        obtain ⟨frequency, phase, amplitude, loOffset⟩ := AnalogUpdate.beq_iff.mp before
        obtain ⟨frequency', phase', amplitude', loOffset'⟩ := AnalogUpdate.beq_iff.mp after
        exact AnalogUpdate.beq_iff.mpr ⟨frequency.trans frequency', phase.trans phase',
          amplitude.trans amplitude', loOffset.trans loOffset'⟩
  | digital a =>
    cases second with
    | analog b => exact before.elim
    | digital b =>
      obtain rfl : a = b := before
      exact after

end Update

/-- Two channels that were both never written, or last with the same record. -/
def SameRecord (first second : Option Update) : Prop :=
  Option.Rel Update.Same first second

namespace SameRecord

variable {first second third : Option Update}

theorem refl (record : Option Update) : SameRecord record record :=
  Option.Rel.refl .refl record

theorem symm (same : SameRecord first second) : SameRecord second first :=
  Option.Rel.symm .symm same

theorem trans (before : SameRecord first second) (after : SameRecord second third) :
    SameRecord first third :=
  Option.Rel.trans .trans before after

theorem isSome_eq (same : SameRecord first second) : first.isSome = second.isSome := by
  cases same <;> rfl

theorem or {first' second' : Option Update} (same : SameRecord first second)
    (same' : SameRecord first' second') : SameRecord (first.or first') (second.or second') := by
  cases same with
  | none => exact same'
  | some same => exact .some same

end SameRecord

namespace UpdateMap

theorem sameRecord_analog {a b : Option AnalogUpdate} :
    (a == b) = true ↔ SameRecord (a.map .analog) (b.map .analog) := by
  cases a with
  | none =>
    cases b with
    | none => exact ⟨fun _ => .none, fun _ => rfl⟩
    | some b => exact ⟨fun equal => (by cases equal), fun same => (by cases same)⟩
  | some a =>
    cases b with
    | none => exact ⟨fun equal => (by cases equal), fun same => (by cases same)⟩
    | some b => exact ⟨fun equal => .some equal, fun | .some same => same⟩

theorem sameRecord_digital {a b : Option DigitalUpdate} :
    (a == b) = true ↔ SameRecord (a.map .digital) (b.map .digital) := by
  rw [beq_iff_eq]
  constructor
  · rintro rfl
    exact .refl _
  · intro same
    cases a with
    | none =>
      cases b with
      | none => rfl
      | some b => cases same
    | some a =>
      cases b with
      | none => cases same
      | some b =>
        obtain ⟨same⟩ := same
        exact congrArg some same

/-- Equal update maps hold the same record for every channel. -/
theorem beq_iff {u v : UpdateMap} :
    (u == v) = true ↔ ∀ channel, SameRecord (u.get? channel) (v.get? channel) := by
  show (u.analog == v.analog && u.digital == v.digital) = true ↔ _
  rw [Bool.and_eq_true, Vector.beq_eq_decide, Vector.beq_eq_decide, decide_eq_true_eq,
    decide_eq_true_eq]
  constructor
  · rintro ⟨analog, digital⟩ channel
    cases channel with
    | rf i => exact sameRecord_analog.mp (analog i i.isLt)
    | digital i => exact sameRecord_digital.mp (digital i i.isLt)
  · intro same
    exact ⟨fun i inside => sameRecord_analog.mpr (same (.rf ⟨i, inside⟩)),
      fun i inside => sameRecord_digital.mpr (same (.digital ⟨i, inside⟩))⟩

instance : EquivBEq UpdateMap where
  rfl := beq_iff.mpr fun _ => .refl _
  symm equal := beq_iff.mpr fun channel => (beq_iff.mp equal channel).symm
  trans before after := beq_iff.mpr fun channel =>
    (beq_iff.mp before channel).trans (beq_iff.mp after channel)

/-- An update map is determined by its records. -/
theorem eq_of_get? {u v : UpdateMap} (same : ∀ channel, u.get? channel = v.get? channel) :
    u = v := by
  obtain ⟨analog, digital⟩ := u
  obtain ⟨analog', digital'⟩ := v
  rw [mk.injEq]
  constructor
  · refine Vector.ext fun i inside => ?_
    exact Option.map_injective (fun _ _ => Update.analog.inj) (same (.rf ⟨i, inside⟩))
  · refine Vector.ext fun i inside => ?_
    exact Option.map_injective (fun _ _ => Update.digital.inj) (same (.digital ⟨i, inside⟩))

section Records

variable (u v : UpdateMap) (group : ChannelSet)

@[simp] theorem analog_empty (i : Fin 4) : empty.analog.get i = none :=
  Vector.getElem_replicate i.isLt

@[simp] theorem digital_empty (i : Fin 7) : empty.digital.get i = none :=
  Vector.getElem_replicate i.isLt

@[simp] theorem analog_merge (i : Fin 4) :
    (u.merge v).analog.get i = (v.analog.get i).or (u.analog.get i) :=
  Vector.getElem_ofFn i.isLt

@[simp] theorem digital_merge (i : Fin 7) :
    (u.merge v).digital.get i = (v.digital.get i).or (u.digital.get i) :=
  Vector.getElem_ofFn i.isLt

@[simp] theorem analog_restrict (i : Fin 4) :
    (u.restrict group).analog.get i = if .rf i ∈ group then u.analog.get i else none :=
  Vector.getElem_ofFn i.isLt

@[simp] theorem digital_restrict (i : Fin 7) :
    (u.restrict group).digital.get i = if .digital i ∈ group then u.digital.get i else none :=
  Vector.getElem_ofFn i.isLt

@[simp] theorem get?_empty (channel : Channel) : empty.get? channel = none := by
  cases channel with
  | rf i => simp [get?]
  | digital i => simp [get?]

@[simp] theorem get?_merge (channel : Channel) :
    (u.merge v).get? channel = (v.get? channel).or (u.get? channel) := by
  cases channel with
  | rf i => simp [get?, Option.map_or]
  | digital i => simp [get?, Option.map_or]

@[simp] theorem get?_restrict (channel : Channel) :
    (u.restrict group).get? channel = if channel ∈ group then u.get? channel else none := by
  cases channel with
  | rf i =>
    simp only [get?, analog_restrict]
    split <;> rfl
  | digital i =>
    simp only [get?, digital_restrict]
    split <;> rfl

end Records

@[simp] theorem mem_channels {u : UpdateMap} {channel : Channel} :
    channel ∈ u.channels ↔ (u.get? channel).isSome = true := by
  simp [channels, Channel.mem_all]

theorem channels_congr {u v : UpdateMap} (equal : (u == v) = true) : u.channels = v.channels := by
  rw [channels, channels]
  exact congrArg _ (List.filter_congr fun channel _ => (beq_iff.mp equal channel).isSome_eq)

@[simp] theorem merge_empty (u : UpdateMap) : u.merge empty = u :=
  eq_of_get? fun channel => by simp

theorem merge_assoc (u v w : UpdateMap) : (u.merge v).merge w = u.merge (v.merge w) :=
  eq_of_get? fun channel => by simp [Option.or_assoc]

theorem restrict_merge (u v : UpdateMap) (group : ChannelSet) :
    (u.merge v).restrict group = (u.restrict group).merge (v.restrict group) :=
  eq_of_get? fun channel => by
    simp only [get?_restrict, get?_merge]
    split <;> rfl

@[simp] theorem restrict_restrict (u : UpdateMap) (group : ChannelSet) :
    (u.restrict group).restrict group = u.restrict group :=
  eq_of_get? fun channel => by
    simp only [get?_restrict]
    split <;> rfl

theorem merge_congr {u u' v v' : UpdateMap} (first : (u == u') = true) (second : (v == v') = true) :
    (u.merge v == u'.merge v') = true := by
  refine beq_iff.mpr fun channel => ?_
  rw [get?_merge, get?_merge]
  exact (beq_iff.mp second channel).or (beq_iff.mp first channel)

theorem restrict_congr {u v : UpdateMap} (equal : (u == v) = true) (group : ChannelSet) :
    (u.restrict group == v.restrict group) = true := by
  refine beq_iff.mpr fun channel => ?_
  rw [get?_restrict, get?_restrict]
  split
  · exact beq_iff.mp equal channel
  · exact .none

/-- Writing records again that are already there changes nothing. -/
theorem merge_self (u : UpdateMap) : u.merge u = u :=
  eq_of_get? fun channel => by simp

theorem beq_merge_of_beq {u v : UpdateMap} (equal : (u == v) = true) : (u == u.merge v) = true := by
  have again := merge_congr (BEq.rfl (a := u)) equal
  rwa [merge_self] at again

/-- Updates of other channels only leave nothing for a group. -/
theorem restrict_eq_empty {u : UpdateMap} {group : ChannelSet}
    (foreign : (u.channels ∩ group).isEmpty = true) : u.restrict group = empty := by
  refine eq_of_get? fun channel => ?_
  rw [get?_restrict, get?_empty]
  split
  · next inGroup =>
    have absent := ChannelSet.isEmpty_iff.mp foreign channel
    rw [ChannelSet.mem_inter, mem_channels] at absent
    exact Option.not_isSome_iff_eq_none.mp fun present => absent ⟨present, inGroup⟩
  · rfl

/-- A single record, with or without a level of a digital output. -/
def ofLevel (index : Nat) (level : Option Bool) : UpdateMap :=
  { empty with digital := .ofFn fun i => if i.val = index then some ⟨level⟩ else none }

end UpdateMap

/-- Updates for no time of their own. -/
def Timestamp.instant (updates : UpdateMap) : Timestamp :=
  ⟨.ofSeconds 0, updates, by decide +kernel⟩

/-- Updates for one second. -/
def Timestamp.second (updates : UpdateMap) : Timestamp :=
  ⟨.ofSeconds 1, updates, by decide +kernel⟩

/-! ## Output words -/

/-- A function that takes the two zeros to the same value takes equal numbers to the same value. -/
theorem Binary64.SameNumber.congr {α : Type} {f : Binary64 → α} {zero : α} {x y : Binary64}
    (zeros : ∀ negative, f (.signedZero negative) = zero) (same : SameNumber x y) : f x = f y := by
  rcases same with rfl | ⟨zeroX, zeroY⟩
  · rfl
  · obtain ⟨a, rfl⟩ := eq_signedZero_of_isZero zeroX
    obtain ⟨b, rfl⟩ := eq_signedZero_of_isZero zeroY
    rw [zeros a, zeros b]

theorem Clock.ticks_zero (negative : Bool) : Clock.ticks (.signedZero negative) = .ok 0 := by
  cases negative <;> rfl

theorem Tuning.frequencyWord_zero (negative : Bool) :
    Tuning.frequencyWord (.signedZero negative) = .ok 0 := by
  cases negative <;> rfl

theorem Tuning.phaseWord_zero (negative : Bool) :
    Tuning.phaseWord (.signedZero negative) = .ok 0 := by
  cases negative <;> rfl

theorem Tuning.amplitudeWord_zero (negative : Bool) :
    Tuning.amplitudeWord (.signedZero negative) = .ok 0 := by
  cases negative <;> rfl

namespace OutputWord

theorem optional_congr {α : Type} {quantize : Binary64 → Except RangeError α} {word : α}
    (zeros : ∀ negative, quantize (.signedZero negative) = .ok word)
    {first second : Option Binary64} (same : SameSetting first second) :
    optional first quantize = optional second quantize := by
  cases same with
  | none => rfl
  | some same =>
    unfold optional
    simp only [same.congr zeros]

/-- The same record adds the same to an output word. -/
theorem apply_congr {first second : Update} (same : first.Same second) (rf : Nat)
    (word : OutputWord) (channel : Channel) :
    word.apply rf channel first = word.apply rf channel second := by
  cases first with
  | digital a =>
    cases second with
    | analog b => exact same.elim
    | digital b =>
      obtain rfl : a = b := same
      rfl
  | analog a =>
    cases second with
    | digital b => exact same.elim
    | analog b =>
      obtain ⟨_, phase, amplitude, _⟩ := AnalogUpdate.beq_iff.mp same
      cases channel with
      | digital index => rfl
      | rf index =>
        simp only [apply, optional_congr Tuning.frequencyWord_zero
          (AnalogUpdate.intermediate_congr same), optional_congr Tuning.phaseWord_zero phase,
          optional_congr Tuning.amplitudeWord_zero amplitude]

/-- Equal update maps add the same to an output word. -/
theorem foldlM_apply_congr {u v : UpdateMap} (equal : (u == v) = true) (rf : Nat)
    (word : OutputWord) :
    u.toList.foldlM (fun word (channel, update) => apply rf word channel update) word
      = v.toList.foldlM (fun word (channel, update) => apply rf word channel update) word := by
  unfold UpdateMap.toList
  generalize Channel.all = channels
  induction channels generalizing word with
  | nil => rfl
  | cons channel rest ih =>
    have same := UpdateMap.beq_iff.mp equal channel
    simp only [List.filterMap_cons]
    generalize u.get? channel = first at same
    generalize v.get? channel = second at same
    cases same with
    | none => exact ih word
    | some same =>
      simp only [Option.map_some, List.foldlM_cons, apply_congr same]
      exact bind_congr fun word => ih word

/-- Equal timestamps have the same output word. -/
theorem ofTimestamp_congr {s t : Timestamp} (equal : (s == t) = true) (rf : Nat) :
    ofTimestamp s rf = ofTimestamp t rf := by
  change (s.duration.value.numEq t.duration.value && s.updates == t.updates) = true at equal
  obtain ⟨duration, updates⟩ := Bool.and_eq_true_iff.mp equal
  obtain ⟨_, same⟩ := Binary64.numEq_iff.mp duration
  unfold ofTimestamp
  simp only [same.congr Clock.ticks_zero, foldlM_apply_congr updates]

end OutputWord

end PulseSequencer

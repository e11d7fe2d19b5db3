import PulseSequencer.Proofs.Program.Synchrony

/-!
# Packed output words

The fields of an output word share the bits of four memory slots. They do not overlap as long as
each of them fits its bits, and the quantization of a timestamp sees to that.

Results:
1. `OutputWord.Recorded`: what a word holds after some of the channels, and `Recorded.apply` for one
   more of them.
2. `OutputWord.ofTimestamp_inRange`, `OutputWord.ofTimestamp_reflects`: the word of a timestamp fits
   its bits and holds what the timestamp carries.
3. `OutputWord.ofData_data`: a word that fits its bits is read back from the four slots.
4. `OutputWord.records_lossless`: both, for the channel updates that write a word.
-/

namespace PulseSequencer

/-! ## What updates carry -/

namespace UpdateMap

/-- The level that a digital output is set to. -/
def level? (updates : UpdateMap) (index : Fin 7) : Option Bool :=
  (updates.digital.get index).bind DigitalUpdate.level

/-- The update of the RF output with this number. -/
def rfUpdate? (updates : UpdateMap) (rf : Nat) : Option AnalogUpdate :=
  if valid : rf < 4 then updates.analog.get ⟨rf, valid⟩ else none

end UpdateMap

namespace OutputWord

/-- The fields of a word fit the bits that the memory slots have for them. -/
structure InRange (word : OutputWord) : Prop where
  ticks : word.ticks.toNat < 2 ^ 48
  mask : word.digitalMask.toNat < 2 ^ 7
  levels : word.digitalLevels.toNat < 2 ^ 7
  phase : ∀ phase, word.phase = some phase → phase.toNat < 2 ^ 12

/-- A word holds the levels that the updates carry, and a word for every setting that they carry for
one RF output. -/
structure Reflects (word : OutputWord) (updates : UpdateMap) (rf : Nat) : Prop where
  mask : ∀ index : Fin 7,
    word.digitalMask.toNat.testBit index = (updates.level? index).isSome
  levels : ∀ index : Fin 7,
    word.digitalLevels.toNat.testBit index = (updates.level? index).getD false
  frequency : word.frequency.isSome =
    ((updates.rfUpdate? rf).bind AnalogUpdate.frequency).isSome
  phase : word.phase.isSome = ((updates.rfUpdate? rf).bind AnalogUpdate.phase).isSome
  amplitude : word.amplitude.isSome =
    ((updates.rfUpdate? rf).bind AnalogUpdate.amplitude).isSome

/-! ## One channel -/

/-- What the update of a channel adds to a word. -/
inductive Applied (rf : Nat) (word : OutputWord) : Channel → Update → OutputWord → Prop
  | keep (index : Fin 7) : Applied rf word (.digital index) (.digital ⟨none⟩) word
  | set (index : Fin 7) (level : Bool) : Applied rf word (.digital index) (.digital ⟨some level⟩)
      { word with
        digitalMask := word.digitalMask ||| ((1 : UInt8) <<< index.val.toUInt8)
        digitalLevels := if level then word.digitalLevels ||| ((1 : UInt8) <<< index.val.toUInt8)
          else word.digitalLevels }
  | tune (index : Fin 4) (update : AnalogUpdate) {frequency : Option UInt32}
      {phase amplitude : Option UInt16} (own : index.val = rf)
      (okFrequency : optional update.intermediate Tuning.frequencyWord = .ok frequency)
      (okPhase : optional update.phase Tuning.phaseWord = .ok phase)
      (okAmplitude : optional update.amplitude Tuning.amplitudeWord = .ok amplitude) :
      Applied rf word (.rf index) (.analog update) { word with frequency, phase, amplitude }

theorem applied_of_apply {rf : Nat} {word next : OutputWord} {channel : Channel} {update : Update}
    (ok : word.apply rf channel update = .ok next) : Applied rf word channel update next := by
  unfold apply at ok
  split at ok
  case h_1 index update =>
    obtain ⟨level⟩ := update
    cases level with
    | none =>
      cases ok
      exact .keep index
    | some level =>
      cases ok
      exact .set index level
  case h_2 index update =>
    split at ok
    case isTrue own =>
      simp only [Except.bind_eq_ok_iff] at ok
      obtain ⟨frequency, okFrequency, phase, okPhase, amplitude, okAmplitude, same⟩ := ok
      cases same
      exact .tune index update own okFrequency okPhase okAmplitude
    case isFalse => cases ok
  case h_3 => cases ok

theorem optional_eq_ok {α : Type} {quantize : Binary64 → Except RangeError α}
    {setting : Option Binary64} {word : Option α} (ok : optional setting quantize = .ok word) :
    setting = none ∧ word = none ∨
      ∃ value quantized, setting = some value ∧ quantize value = .ok quantized ∧
        word = some quantized := by
  cases setting with
  | none =>
    cases ok
    exact .inl ⟨rfl, rfl⟩
  | some value =>
    cases found : quantize value with
    | error error =>
      rw [optional, found] at ok
      cases ok
    | ok quantized =>
      rw [optional, found] at ok
      cases ok
      exact .inr ⟨value, quantized, rfl, found, rfl⟩

theorem isSome_optional {α : Type} {quantize : Binary64 → Except RangeError α}
    {setting : Option Binary64} {word : Option α} (ok : optional setting quantize = .ok word) :
    word.isSome = setting.isSome := by
  obtain ⟨rfl, rfl⟩ | ⟨value, quantized, rfl, _, rfl⟩ := optional_eq_ok ok <;> rfl

/-- A phase word has 12 bits. -/
theorem phase_lt_of_optional {setting : Option Binary64} {phase : Option UInt16}
    (ok : optional setting Tuning.phaseWord = .ok phase) :
    ∀ word, phase = some word → word.toNat < 2 ^ 12 := by
  rintro word rfl
  obtain ⟨_, absent⟩ | ⟨radians, quantized, _, found, same⟩ := optional_eq_ok ok
  · cases absent
  · cases same
    unfold Tuning.phaseWord at found
    split at found
    case isTrue =>
      cases found
      refine Nat.lt_of_le_of_lt (Nat.mod_le _ _) (Nat.lt_of_le_of_lt (Nat.min_le_right _ _) ?_)
      decide
    case isFalse => cases found

/-! ## Channel by channel -/

section Recording

variable {updates : UpdateMap} {rf : Nat} {done : List Channel} {word next : OutputWord}
  {channel : Channel}

/-- One of the channels in `done` is the RF output with this number, and the updates carry a setting
for it. -/
def Carried (updates : UpdateMap) (rf : Nat) (done : List Channel)
    (setting : AnalogUpdate → Option Binary64) : Prop :=
  ∃ index : Fin 4, index.val = rf ∧ .rf index ∈ done ∧
    ∃ update, updates.analog.get index = some update ∧ (setting update).isSome = true

/-- What a word holds of the updates of the digital channels in `done`. -/
structure RecordedLevels (updates : UpdateMap) (done : List Channel) (word : OutputWord) :
    Prop where
  mask : ∀ position, word.digitalMask.toNat.testBit position = true ↔
    ∃ index : Fin 7, index.val = position ∧ .digital index ∈ done ∧
      (updates.level? index).isSome = true
  levels : ∀ position, word.digitalLevels.toNat.testBit position = true ↔
    ∃ index : Fin 7, index.val = position ∧ .digital index ∈ done ∧
      updates.level? index = some true

/-- What a word holds of the updates of the RF channels in `done`. -/
structure RecordedSettings (updates : UpdateMap) (rf : Nat) (done : List Channel)
    (word : OutputWord) : Prop where
  frequency : word.frequency.isSome = true ↔ Carried updates rf done AnalogUpdate.frequency
  phase : word.phase.isSome = true ↔ Carried updates rf done AnalogUpdate.phase
  amplitude : word.amplitude.isSome = true ↔ Carried updates rf done AnalogUpdate.amplitude
  phase_lt : ∀ phase, word.phase = some phase → phase.toNat < 2 ^ 12

structure Recorded (updates : UpdateMap) (rf : Nat) (done : List Channel) (word : OutputWord) :
    Prop where
  levels : RecordedLevels updates done word
  settings : RecordedSettings updates rf done word

/-- A channel without a level changes nothing. -/
theorem RecordedLevels.skip (recorded : RecordedLevels updates done word)
    (silent : ∀ index, channel = .digital index → updates.level? index = none) :
    RecordedLevels updates (done ++ [channel]) word := by
  constructor
  · intro position
    rw [recorded.mask]
    grind
  · intro position
    rw [recorded.levels]
    grind

/-- A channel that is no RF output changes nothing. -/
theorem RecordedSettings.skip (recorded : RecordedSettings updates rf done word)
    (silent : ∀ index, channel = .rf index → updates.analog.get index = none) :
    RecordedSettings updates rf (done ++ [channel]) word := by
  have same (setting : AnalogUpdate → Option Binary64) :
      Carried updates rf (done ++ [channel]) setting ↔ Carried updates rf done setting := by
    unfold Carried
    grind
  exact ⟨recorded.frequency.trans (same _).symm, recorded.phase.trans (same _).symm,
    recorded.amplitude.trans (same _).symm, recorded.phase_lt⟩

/-- The mask of a digital output. -/
theorem testBit_or_output (x : UInt8) (index : Fin 7) (position : Nat) :
    (x ||| ((1 : UInt8) <<< index.val.toUInt8)).toNat.testBit position =
      (x.toNat.testBit position || decide (index.val = position)) := by
  have single : ∀ index : Fin 7, ((1 : UInt8) <<< index.val.toUInt8).toNat = 2 ^ index.val := by
    decide
  rw [UInt8.toNat_or, Nat.testBit_or, single, Nat.testBit_two_pow]

theorem RecordedLevels.set (recorded : RecordedLevels updates done word) {index : Fin 7}
    {level : Bool} (isSet : updates.level? index = some level) :
    RecordedLevels updates (done ++ [.digital index]) { word with
      digitalMask := word.digitalMask ||| ((1 : UInt8) <<< index.val.toUInt8)
      digitalLevels := if level then word.digitalLevels ||| ((1 : UInt8) <<< index.val.toUInt8)
        else word.digitalLevels } := by
  constructor
  · intro position
    rw [testBit_or_output, Bool.or_eq_true, recorded.mask, decide_eq_true_iff]
    grind
  · intro position
    cases level with
    | false =>
      show word.digitalLevels.toNat.testBit position = true ↔ _
      rw [recorded.levels]
      grind
    | true =>
      rw [if_pos rfl, testBit_or_output, Bool.or_eq_true, recorded.levels, decide_eq_true_iff]
      grind

/-- The settings of the RF output take the place of all earlier ones. -/
theorem carried_own {index : Fin 4} {update : AnalogUpdate} (own : index.val = rf)
    (found : updates.analog.get index = some update) (setting : AnalogUpdate → Option Binary64) :
    Carried updates rf (done ++ [.rf index]) setting ↔ (setting update).isSome = true := by
  constructor
  · rintro ⟨other, same, _, carried, foundOther, isSet⟩
    obtain rfl : other = index := Fin.ext (same.trans own.symm)
    rw [found] at foundOther
    rwa [Option.some.inj foundOther]
  · intro isSet
    exact ⟨index, own, List.mem_append_right _ (List.mem_singleton_self _), update, found, isSet⟩

/-- One more channel. -/
theorem Recorded.apply {update : Update} (recorded : Recorded updates rf done word)
    (found : updates.get? channel = some update) (applied : Applied rf word channel update next) :
    Recorded updates rf (done ++ [channel]) next := by
  cases applied with
  | keep index =>
    obtain ⟨digital, foundDigital, same⟩ := Option.map_eq_some_iff.mp found
    cases same
    refine ⟨recorded.levels.skip ?_, recorded.settings.skip (by rintro _ ⟨⟩)⟩
    rintro _ ⟨⟩
    rw [UpdateMap.level?, foundDigital]
    rfl
  | set index level =>
    obtain ⟨digital, foundDigital, same⟩ := Option.map_eq_some_iff.mp found
    cases same
    refine ⟨recorded.levels.set ?_, ?_⟩
    · rw [UpdateMap.level?, foundDigital]
      rfl
    · have settings : RecordedSettings updates rf (done ++ [.digital index]) word :=
        recorded.settings.skip (by rintro _ ⟨⟩)
      exact ⟨settings.frequency, settings.phase, settings.amplitude, settings.phase_lt⟩
  | tune index analog own okFrequency okPhase okAmplitude =>
    obtain ⟨_, foundAnalog, same⟩ := Option.map_eq_some_iff.mp found
    cases same
    have carried := @carried_own updates rf done index analog own foundAnalog
    constructor
    · have levels : RecordedLevels updates (done ++ [.rf index]) word :=
        recorded.levels.skip (by rintro _ ⟨⟩)
      exact ⟨levels.mask, levels.levels⟩
    · refine ⟨?_, ?_, ?_, phase_lt_of_optional okPhase⟩
      · rw [carried, isSome_optional okFrequency, AnalogUpdate.intermediate, Option.isSome_map]
      · rw [carried, isSome_optional okPhase]
      · rw [carried, isSome_optional okAmplitude]

/-- All channels of a list. -/
theorem Recorded.foldlM {channels : List Channel} (recorded : Recorded updates rf done word)
    (ok : (channels.filterMap fun channel => (updates.get? channel).map (channel, ·)).foldlM
      (fun word (channel, update) => word.apply rf channel update) word = .ok next) :
    Recorded updates rf (done ++ channels) next := by
  induction channels generalizing done word with
  | nil =>
    cases ok
    rwa [List.append_nil]
  | cons channel rest ih =>
    rw [← List.singleton_append, ← List.append_assoc]
    rw [List.filterMap_cons] at ok
    cases found : updates.get? channel with
    | none =>
      rw [found] at ok
      refine ih ⟨recorded.levels.skip ?_, recorded.settings.skip ?_⟩ ok
      · rintro index rfl
        rw [UpdateMap.level?, Option.map_eq_none_iff.mp found]
        rfl
      · rintro index rfl
        exact Option.map_eq_none_iff.mp found
    | some update =>
      rw [found] at ok
      obtain ⟨after, applied, okRest⟩ := Except.bind_eq_ok_iff.mp ok
      exact ih (recorded.apply found (applied_of_apply applied)) okRest

end Recording

/-! ## Timestamps -/

section Timestamps

variable {t : Timestamp} {rf : Nat} {word : OutputWord}

theorem recorded_ofTimestamp (ok : ofTimestamp t rf = .ok word) :
    Recorded t.updates rf Channel.all word := by
  unfold ofTimestamp at ok
  split at ok
  case h_1 => cases ok
  case h_2 ticks _ =>
    have silent : Recorded t.updates rf [] ⟨ticks.toUInt64, 0, 0, false, none, none, none⟩ := by
      refine ⟨⟨fun position => ?_, fun position => ?_⟩, ?_, ?_, ?_, by rintro _ ⟨⟩⟩
      all_goals simp [Carried]
    exact silent.foldlM ok

theorem ticks_ofTimestamp_lt (ok : ofTimestamp t rf = .ok word) : word.ticks.toNat < 2 ^ 48 := by
  obtain ⟨k, fits, ticks, _⟩ := Clock.ticks_spec t.within
  have small : k < 2 ^ 48 := Nat.lt_of_le_of_lt fits (by decide)
  simp only [ofTimestamp, ticks] at ok
  rw [ticks_foldlM ok]
  exact Nat.lt_of_le_of_lt (Nat.mod_le _ _) small

/-- Bits that all belong to digital outputs. -/
theorem lt_of_outputs {n : Nat}
    (outputs : ∀ position, n.testBit position = true → ∃ index : Fin 7, index.val = position) :
    n < 2 ^ 7 := by
  apply Nat.lt_pow_two_of_testBit
  intro position above
  apply Bool.eq_false_iff.mpr
  intro isSet
  obtain ⟨index, rfl⟩ := outputs position isSet
  exact absurd index.isLt (Nat.not_lt.mpr above)

theorem ofTimestamp_inRange (ok : ofTimestamp t rf = .ok word) : word.InRange := by
  obtain ⟨levels, settings⟩ := recorded_ofTimestamp ok
  refine ⟨ticks_ofTimestamp_lt ok, lt_of_outputs ?_, lt_of_outputs ?_, settings.phase_lt⟩
  · intro position isSet
    obtain ⟨index, same, _⟩ := (levels.mask position).mp isSet
    exact ⟨index, same⟩
  · intro position isSet
    obtain ⟨index, same, _⟩ := (levels.levels position).mp isSet
    exact ⟨index, same⟩

/-- No output is set without being updated. -/
theorem ofTimestamp_masked (ok : ofTimestamp t rf = .ok word) {position : Nat}
    (isSet : word.digitalLevels.toNat.testBit position = true) :
    word.digitalMask.toNat.testBit position = true := by
  have levels := (recorded_ofTimestamp ok).levels
  obtain ⟨index, same, present, level⟩ := (levels.levels position).mp isSet
  exact (levels.mask position).mpr ⟨index, same, present, by rw [level]; rfl⟩

theorem carried_all {updates : UpdateMap} {setting : AnalogUpdate → Option Binary64} :
    Carried updates rf Channel.all setting ↔
      ((updates.rfUpdate? rf).bind setting).isSome = true := by
  unfold Carried UpdateMap.rfUpdate?
  constructor
  · rintro ⟨index, rfl, _, update, found, isSet⟩
    rw [dif_pos index.isLt, found]
    exact isSet
  · intro isSet
    split at isSet
    case isTrue valid =>
      cases found : updates.analog.get ⟨rf, valid⟩ with
      | none =>
        rw [found] at isSet
        cases isSet
      | some update =>
        rw [found] at isSet
        exact ⟨⟨rf, valid⟩, rfl, Channel.mem_all _, update, found, isSet⟩
    case isFalse => cases isSet

theorem ofTimestamp_reflects (ok : ofTimestamp t rf = .ok word) : word.Reflects t.updates rf := by
  obtain ⟨levels, settings⟩ := recorded_ofTimestamp ok
  refine ⟨fun index => ?_, fun index => ?_,
    Bool.eq_iff_iff.mpr (settings.frequency.trans carried_all),
    Bool.eq_iff_iff.mpr (settings.phase.trans carried_all),
    Bool.eq_iff_iff.mpr (settings.amplitude.trans carried_all)⟩
  · rw [Bool.eq_iff_iff, levels.mask]
    constructor
    · rintro ⟨other, same, _, isSet⟩
      rwa [← Fin.ext same]
    · intro isSet
      exact ⟨index, rfl, Channel.mem_all _, isSet⟩
  · rw [Bool.eq_iff_iff, levels.levels]
    constructor
    · rintro ⟨other, same, _, isSet⟩
      rw [← Fin.ext same, isSet]
      rfl
    · intro isSet
      refine ⟨index, rfl, Channel.mem_all _, ?_⟩
      cases level : t.updates.level? index with
      | none =>
        rw [level] at isSet
        cases isSet
      | some on =>
        rw [level] at isSet
        exact congrArg some isSet

end Timestamps

/-! ## Reading the slots -/

/-- The number in `width` bits of a datum, from bit `low` on. -/
def bits (datum : UInt32) (low width : Nat) : Nat :=
  datum.toNat / 2 ^ low % 2 ^ width

/-- The word in the data of the memory slots. -/
def ofData (data : MemorySlot → UInt32) : OutputWord :=
  { ticks := ((data .ticksLow).toNat + 2 ^ 32 * bits (data .ticksHigh) 0 16).toUInt64
    digitalMask := (bits (data .ticksHigh) 16 7).toUInt8
    digitalLevels := (bits (data .ticksHigh) 24 7).toUInt8
    waitForTrigger := (data .ticksHigh).toNat.testBit 31
    frequency := if (data .phaseAmplitude).toNat.testBit 28 then some (data .frequency) else none
    phase := if (data .phaseAmplitude).toNat.testBit 29 then
      some (bits (data .phaseAmplitude) 0 12).toUInt16 else none
    amplitude := if (data .phaseAmplitude).toNat.testBit 30 then
      some (bits (data .phaseAmplitude) 12 16).toUInt16 else none }

/-- The word in the channel updates of one address. -/
def ofInstructions (instructions : List Instruction) : OutputWord :=
  ofData fun slot => ((instructions.filterMap Instruction.update?).lookup slot).getD 0

/-- A number is put above the bits of another one by adding it. -/
theorem toNat_pack {a b : UInt32} {low high k : Nat} (isLow : a.toNat = low)
    (isHigh : b.toNat = high) (inside : k < 32) (lowLt : low < 2 ^ k)
    (highLt : 2 ^ k * high < 2 ^ 32) :
    (a ||| b <<< UInt32.ofNat k).toNat = low + 2 ^ k * high := by
  have position : (UInt32.ofNat k).toNat % 32 = k := by
    rw [UInt32.toNat_ofNat_of_lt' (inside.trans (by decide)), Nat.mod_eq_of_lt inside]
  rw [UInt32.toNat_or, UInt32.toNat_shiftLeft, position, isLow, isHigh, Nat.shiftLeft_eq,
    Nat.mul_comm, Nat.mod_eq_of_lt highLt, Nat.or_comm, ← Nat.two_pow_add_eq_or_of_lt lowLt,
    Nat.add_comm]

theorem ite_shiftLeft (flag : Bool) (position : UInt32) :
    (if flag then (1 : UInt32) <<< position else 0) = flag.toNat.toUInt32 <<< position := by
  cases flag with
  | false => exact UInt32.zero_shiftLeft.symm
  | true => rfl

theorem toNat_flag (flag : Bool) : flag.toNat.toUInt32.toNat = flag.toNat := by
  cases flag <;> rfl

variable {word : OutputWord}

theorem toNat_data_ticksHigh (inRange : word.InRange) :
    (word.data .ticksHigh).toNat = word.ticks.toNat / 2 ^ 32 +
      2 ^ 16 * word.digitalMask.toNat + 2 ^ 24 * word.digitalLevels.toNat +
      2 ^ 31 * word.waitForTrigger.toNat := by
  obtain ⟨ticksLt, maskLt, levelsLt, _⟩ := inRange
  have flagLe := Bool.toNat_le word.waitForTrigger
  have ticks : ((word.ticks >>> 32) &&& 0xffff).toUInt32.toNat = word.ticks.toNat / 2 ^ 32 := by
    rw [UInt64.toNat_toUInt32, UInt64.toNat_and, UInt64.toNat_shiftRight]
    show (word.ticks.toNat >>> 32 &&& 2 ^ 16 - 1) % 2 ^ 32 = _
    rw [Nat.and_two_pow_sub_one_eq_mod, Nat.shiftRight_eq_div_pow]
    omega
  have mask := toNat_pack (k := 16) ticks word.digitalMask.toNat_toUInt32 (by decide) (by omega)
    (by omega)
  have levels := toNat_pack (k := 24) mask word.digitalLevels.toNat_toUInt32 (by decide) (by omega)
    (by omega)
  have flag := toNat_pack (k := 31) levels (toNat_flag word.waitForTrigger) (by decide) (by omega)
    (by omega)
  rw [← flag, ← ite_shiftLeft]
  rfl

theorem InRange.phase_getD_lt (inRange : word.InRange) : (word.phase.getD 0).toNat < 2 ^ 12 := by
  cases present : word.phase with
  | none => decide
  | some phase => exact inRange.phase phase present

theorem toNat_data_phaseAmplitude (inRange : word.InRange) :
    (word.data .phaseAmplitude).toNat = (word.phase.getD 0).toNat +
      2 ^ 12 * (word.amplitude.getD 0).toNat + 2 ^ 28 * word.frequency.isSome.toNat +
      2 ^ 29 * word.phase.isSome.toNat + 2 ^ 30 * word.amplitude.isSome.toNat := by
  have phaseLt := inRange.phase_getD_lt
  have amplitudeLt := (word.amplitude.getD 0).toNat_lt
  have frequencyLe := Bool.toNat_le word.frequency.isSome
  have phaseLe := Bool.toNat_le word.phase.isSome
  have amplitudeLe := Bool.toNat_le word.amplitude.isSome
  have amplitude := toNat_pack (k := 12) (word.phase.getD 0).toNat_toUInt32
    (word.amplitude.getD 0).toNat_toUInt32 (by decide) (by omega) (by omega)
  have first := toNat_pack (k := 28) amplitude (toNat_flag word.frequency.isSome) (by decide)
    (by omega) (by omega)
  have second := toNat_pack (k := 29) first (toNat_flag word.phase.isSome) (by decide) (by omega)
    (by omega)
  have third := toNat_pack (k := 30) second (toNat_flag word.amplitude.isSome) (by decide)
    (by omega) (by omega)
  rw [← third, ← ite_shiftLeft, ← ite_shiftLeft, ← ite_shiftLeft]
  rfl

theorem testBit_eq_flag {n position : Nat} {flag : Bool}
    (isFlag : n / 2 ^ position % 2 = flag.toNat) :
    n.testBit position = flag := by
  rw [Nat.testBit_eq_decide_div_mod_eq, isFlag]
  cases flag <;> rfl

/-- The four settings of the first two slots. -/
theorem ofData_data_ticks (inRange : word.InRange) :
    (ofData word.data).ticks = word.ticks ∧
    (ofData word.data).digitalMask = word.digitalMask ∧
    (ofData word.data).digitalLevels = word.digitalLevels ∧
    (ofData word.data).waitForTrigger = word.waitForTrigger := by
  have low : (word.data .ticksLow).toNat = word.ticks.toNat % 2 ^ 32 := UInt64.toNat_toUInt32 _
  have high := toNat_data_ticksHigh inRange
  have flagLe := Bool.toNat_le word.waitForTrigger
  obtain ⟨ticksLt, maskLt, levelsLt, _⟩ := inRange
  refine ⟨UInt64.toNat_inj.mp ?_, UInt8.toNat_inj.mp ?_, UInt8.toNat_inj.mp ?_, testBit_eq_flag ?_⟩
  · show ((word.data .ticksLow).toNat + 2 ^ 32 * bits (word.data .ticksHigh) 0 16) % 2 ^ 64 = _
    rw [bits, low, high]
    omega
  · show bits (word.data .ticksHigh) 16 7 % 2 ^ 8 = _
    rw [bits, high]
    omega
  · show bits (word.data .ticksHigh) 24 7 % 2 ^ 8 = _
    rw [bits, high]
    omega
  · rw [high]
    omega

/-- A word that is present has its bit set and is read from its own bits. -/
theorem ite_testBit {α : Type} {n position : Nat} {setting : Option α} {value : α}
    (isFlag : n / 2 ^ position % 2 = setting.isSome.toNat)
    (isValue : ∀ present, setting = some present → value = present) :
    (if n.testBit position then some value else none) = setting := by
  rw [testBit_eq_flag isFlag]
  cases setting with
  | none => rfl
  | some present => exact congrArg some (isValue present rfl)

theorem ofData_data_settings (inRange : word.InRange) :
    (ofData word.data).frequency = word.frequency ∧
    (ofData word.data).phase = word.phase ∧
    (ofData word.data).amplitude = word.amplitude := by
  have packed := toNat_data_phaseAmplitude inRange
  have phaseLt := inRange.phase_getD_lt
  have amplitudeLt := (word.amplitude.getD 0).toNat_lt
  have frequencyLe := Bool.toNat_le word.frequency.isSome
  have phaseLe := Bool.toNat_le word.phase.isSome
  have amplitudeLe := Bool.toNat_le word.amplitude.isSome
  refine ⟨ite_testBit ?_ ?_, ite_testBit ?_ ?_, ite_testBit ?_ ?_⟩
  · rw [packed]
    omega
  · intro frequency present
    rw [data, present, Option.getD_some]
  · rw [packed]
    omega
  · intro phase present
    rw [present, Option.getD_some] at phaseLt packed
    apply UInt16.toNat_inj.mp
    show bits (word.data .phaseAmplitude) 0 12 % 2 ^ 16 = _
    rw [bits, packed]
    omega
  · rw [packed]
    omega
  · intro amplitude present
    rw [present, Option.getD_some] at amplitudeLt packed
    apply UInt16.toNat_inj.mp
    show bits (word.data .phaseAmplitude) 12 16 % 2 ^ 16 = _
    rw [bits, packed]
    omega

theorem ofData_data (inRange : word.InRange) : ofData word.data = word := by
  obtain ⟨ticks, mask, levels, trigger⟩ := ofData_data_ticks inRange
  obtain ⟨frequency, phase, amplitude⟩ := ofData_data_settings inRange
  exact (OutputWord.mk.injEq ..).mpr ⟨ticks, mask, levels, trigger, frequency, phase, amplitude⟩

/-- The channel updates that write a word hold its data. -/
theorem ofInstructions_instructions (inRange : word.InRange) (channel : UInt8) (address : UInt16) :
    ofInstructions (word.instructions channel address) = word := by
  have slots : (fun slot => (((word.instructions channel address).filterMap
      Instruction.update?).lookup slot).getD 0) = word.data := by
    funext slot
    cases slot <;> rfl
  rw [ofInstructions, slots, ofData_data inRange]

/-- The records of a timestamp are a lossless packing. The word of a timestamp fits its bits and
holds exactly what the timestamp carries for the digital outputs and for the RF output of the board.
Any word that fits its bits is read back from the channel updates that write it, to whatever channel
and address, so that no two words have the same records. -/
theorem records_lossless :
    (∀ t rf word, ofTimestamp t rf = .ok word →
      word.InRange ∧ word.Reflects t.updates rf ∧
      ∀ position, word.digitalLevels.toNat.testBit position = true →
        word.digitalMask.toNat.testBit position = true) ∧
    (∀ word : OutputWord, word.InRange → ∀ channel address,
      ofInstructions (word.instructions channel address) = word) ∧
    (∀ first second : OutputWord, first.InRange → second.InRange → ∀ channel address,
      first.instructions channel address = second.instructions channel address →
      first = second) := by
  refine ⟨fun t rf word ok => ?_, fun word inRange => ofInstructions_instructions inRange, ?_⟩
  · exact ⟨ofTimestamp_inRange ok, ofTimestamp_reflects ok, fun _ => ofTimestamp_masked ok⟩
  · intro first second firstInRange secondInRange channel address same
    have readBack := ofInstructions_instructions firstInRange channel address
    rw [same, ofInstructions_instructions secondInRange] at readBack
    exact readBack.symm

/-- The word with the largest number in every field. -/
def fullWord : OutputWord :=
  ⟨0xffffffffffff, 0x7f, 0x7f, true, some 0xffffffff, some 0xfff, some 0xffff⟩

theorem records_lossless_fullWord :
    (∃ word, ofTimestamp (.second (.ofLevel 6 (some true))) 3 = .ok word ∧
      word.InRange ∧ word.Reflects (.ofLevel 6 (some true)) 3) ∧
    fullWord.InRange ∧ ofInstructions (fullWord.instructions 3 0x3fff) = fullWord := by
  obtain ⟨ofTimestamps, readBack, _⟩ := records_lossless
  have isOk : (ofTimestamp (.second (.ofLevel 6 (some true))) 3).isOk = true := by decide +kernel
  obtain ⟨word, ok⟩ := Except.exists_ok_of_isOk isOk
  obtain ⟨inRange, reflects, _⟩ := ofTimestamps _ _ _ ok
  have full : fullWord.InRange := by
    refine ⟨by decide, by decide, by decide, ?_⟩
    rintro _ ⟨⟩
    decide
  exact ⟨⟨word, ok, inRange, reflects⟩, full, readBack fullWord full 3 0x3fff⟩

end OutputWord

end PulseSequencer

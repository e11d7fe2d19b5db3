import PulseSequencer.SequenceError
import PulseSequencer.Tuning

/-!
# Channel updates

What a timestamp writes to the outputs at its start. A setting that is absent keeps its previous
value on the hardware.
-/

namespace PulseSequencer

/-! ## Analog updates -/

/-- The frequency that the synthesizer itself generates, below the local oscillator. -/
def intermediateFrequency : Quantity :=
  { name := "Frequency minus LO offset", unit := "Hz", low := 0, high := Tuning.maxFrequency }

/-- Settings of an RF output. The local oscillator is external: its frequency `loOffset` is not
programmed into the synthesizer, which outputs `frequency - loOffset`. -/
structure AnalogUpdate where
  frequency : Option Binary64
  phase : Option Binary64
  amplitude : Option Binary64
  loOffset : Binary64
  loOffset_finite : loOffset.isFinite = true
  frequency_within : ∀ hertz, frequency = some hertz →
    Binary64.Within intermediateFrequency.low intermediateFrequency.high (hertz - loOffset)
  phase_finite : ∀ radians, phase = some radians → radians.isFinite = true
  amplitude_within : ∀ fraction, amplitude = some fraction →
    Binary64.Within Tuning.amplitude.low Tuning.amplitude.high fraction

namespace AnalogUpdate

/-- Checks an optional setting, which is valid if absent. -/
private def checkSetting {valid : Binary64 → Prop}
    (check : (x : Binary64) → Except RangeError (PLift (valid x))) :
    (setting : Option Binary64) →
      Except SequenceError (PLift (∀ x, setting = some x → valid x))
  | none => .ok ⟨fun _ h => nomatch h⟩
  | some x =>
    match check x with
    | .ok ⟨h⟩ => .ok ⟨fun _ present => Option.some.inj present ▸ h⟩
    | .error error => .error (.range error)

private def checkPhase (radians : Binary64) :
    Except RangeError (PLift (radians.isFinite = true)) :=
  if finite : radians.isFinite = true then .ok ⟨finite⟩ else .error (.notFinite "Phase" radians)

/-- An update of the given settings, checked in the order offset, frequency, phase, amplitude. -/
def build (frequency phase amplitude : Option Binary64) (loOffset : Binary64) :
    Except SequenceError AnalogUpdate := do
  if finite : loOffset.isFinite = true then
    let ⟨frequencyValid⟩ ←
      checkSetting (fun hertz => intermediateFrequency.checkRange (hertz - loOffset)) frequency
    let ⟨phaseValid⟩ ← checkSetting checkPhase phase
    let ⟨amplitudeValid⟩ ← checkSetting Tuning.amplitude.checkRange amplitude
    return ⟨frequency, phase, amplitude, loOffset, finite, frequencyValid, phaseValid,
      amplitudeValid⟩
  else
    throw (.loOffset loOffset)

def intermediate (update : AnalogUpdate) : Option Binary64 :=
  update.frequency.map (· - update.loOffset)

def sameSetting : Option Binary64 → Option Binary64 → Bool
  | none, none => true
  | some x, some y => x.numEq y
  | _, _ => false

/-- Updates are equal when their settings are equal as numbers. -/
instance : BEq AnalogUpdate where
  beq a b := sameSetting a.frequency b.frequency && sameSetting a.phase b.phase
    && sameSetting a.amplitude b.amplitude && a.loOffset.numEq b.loOffset

end AnalogUpdate

/-! ## Digital updates -/

/-- The level of a digital output, absent to keep the previous level. -/
structure DigitalUpdate where
  level : Option Bool
  deriving DecidableEq

/-! ## Updates of several channels -/

inductive Update where
  | analog (update : AnalogUpdate)
  | digital (update : DigitalUpdate)

/-- At most one update for each channel, of the kind that the channel takes. -/
structure UpdateMap where
  analog : Vector (Option AnalogUpdate) 4
  digital : Vector (Option DigitalUpdate) 7
  deriving BEq

namespace UpdateMap

def empty : UpdateMap :=
  ⟨.replicate 4 none, .replicate 7 none⟩

instance : Inhabited UpdateMap := ⟨empty⟩

def get? (updates : UpdateMap) : Channel → Option Update
  | .rf index => (updates.analog.get index).map .analog
  | .digital index => (updates.digital.get index).map .digital

/-- Sets the update of a channel in place of an earlier one. -/
def insert (updates : UpdateMap) : Channel → Update → Except SequenceError UpdateMap
  | .rf index, .analog update =>
    .ok { updates with
      analog := .ofFn fun i => if i = index then some update else updates.analog.get i }
  | .digital index, .digital update =>
    .ok { updates with
      digital := .ofFn fun i => if i = index then some update else updates.digital.get i }
  | channel, _ => .error (.updateKind channel)

/-- The updates of pairs of a channel name and an update. A later pair replaces an earlier one. -/
def ofPairs (pairs : List (String × Update)) : Except SequenceError UpdateMap :=
  pairs.foldlM
    (fun updates (name, update) => do updates.insert (← Channel.ofName name) update)
    empty

def channels (updates : UpdateMap) : ChannelSet :=
  .ofList (Channel.all.filter fun channel => (updates.get? channel).isSome)

/-- The updates of the channels in `group` only. -/
def restrict (updates : UpdateMap) (group : ChannelSet) : UpdateMap :=
  { analog := .ofFn fun i => if .rf i ∈ group then updates.analog.get i else none
    digital := .ofFn fun i => if .digital i ∈ group then updates.digital.get i else none }

/-- Both updates, where `later` replaces the update of a channel that both hold. -/
def merge (earlier later : UpdateMap) : UpdateMap :=
  { analog := .ofFn fun i => (later.analog.get i).or (earlier.analog.get i)
    digital := .ofFn fun i => (later.digital.get i).or (earlier.digital.get i) }

/-- The channels with their updates, in channel order. -/
def toList (updates : UpdateMap) : List (Channel × Update) :=
  Channel.all.filterMap fun channel => (updates.get? channel).map (channel, ·)

end UpdateMap

end PulseSequencer

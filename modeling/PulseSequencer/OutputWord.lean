import PulseSequencer.Element.Basic
import PulseSequencer.Instruction

/-!
# Output words

What a board plays for one timestamp: the duration in ticks, the levels of the digital outputs and
the words of its RF output, packed into four channel updates.
-/

namespace PulseSequencer

/-- The quantized content of one timestamp. A word that is absent leaves its setting alone. -/
structure OutputWord where
  ticks : UInt64
  /-- Bit `i` is set if digital output `i` is updated. -/
  digitalMask : UInt8
  digitalLevels : UInt8
  waitForTrigger : Bool
  frequency : Option UInt32
  phase : Option UInt16
  amplitude : Option UInt16
  deriving DecidableEq

/-- Why a timestamp has no output word on a board. -/
inductive OutputError where
  | range (error : RangeError)
  /-- The timestamp updates an RF channel of another board. -/
  | foreignChannel (channel : Channel) (rf : Nat)

def OutputError.message : OutputError → String
  | .range error => error.message
  | .foreignChannel channel rf =>
    s!"Timestamp updates channel {channel.name} which is not driven by RF{rf}"

namespace OutputWord

/-- The word of a setting that is present. -/
def optional {α : Type} (setting : Option Binary64)
    (quantize : Binary64 → Except RangeError α) : Except OutputError (Option α) :=
  match setting with
  | none => .ok none
  | some value =>
    match quantize value with
    | .ok word => .ok (some word)
    | .error error => .error (.range error)

/-- Adds the update of one channel to the word of the board that drives output `rf`. -/
def apply (rf : Nat) (word : OutputWord) (channel : Channel) (update : Update) :
    Except OutputError OutputWord :=
  match channel, update with
  | .digital index, .digital update =>
    match update.level with
    | none => .ok word
    | some level =>
      let bit := (1 : UInt8) <<< index.val.toUInt8
      .ok { word with
        digitalMask := word.digitalMask ||| bit
        digitalLevels := if level then word.digitalLevels ||| bit else word.digitalLevels }
  | .rf index, .analog update =>
    if index.val = rf then do
      let frequency ← optional update.intermediate Tuning.frequencyWord
      let phase ← optional update.phase Tuning.phaseWord
      let amplitude ← optional update.amplitude Tuning.amplitudeWord
      return { word with frequency, phase, amplitude }
    else .error (.foreignChannel channel rf)
  | _, _ => .error (.foreignChannel channel rf)

/-- The word of a timestamp for the board that drives output `rf`. -/
def ofTimestamp (timestamp : Timestamp) (rf : Nat) : Except OutputError OutputWord :=
  match Clock.ticks timestamp.duration.value with
  | .error error => .error (.range error)
  | .ok ticks =>
    let silent : OutputWord :=
      { ticks := ticks.toUInt64, digitalMask := 0, digitalLevels := 0, waitForTrigger := false
        frequency := none, phase := none, amplitude := none }
    timestamp.updates.toList.foldlM (fun word (channel, update) => word.apply rf channel update)
      silent

private def bit (flag : Bool) (position : UInt32) : UInt32 :=
  if flag then 1 <<< position else 0

/-- The content of one memory slot. -/
def data (word : OutputWord) : MemorySlot → UInt32
  | .ticksLow => word.ticks.toUInt32
  | .ticksHigh =>
    ((word.ticks >>> 32) &&& 0xffff).toUInt32
      ||| (word.digitalMask.toUInt32 <<< 16)
      ||| (word.digitalLevels.toUInt32 <<< 24)
      ||| bit word.waitForTrigger 31
  | .frequency => word.frequency.getD 0
  | .phaseAmplitude =>
    (word.phase.getD 0).toUInt32
      ||| ((word.amplitude.getD 0).toUInt32 <<< 12)
      ||| bit word.frequency.isSome 28
      ||| bit word.phase.isSome 29
      ||| bit word.amplitude.isSome 30

/-- The channel updates that write the word to an address, one for each memory slot. -/
def instructions (word : OutputWord) (channel : UInt8) (address : UInt16) : List Instruction :=
  MemorySlot.all.map fun slot => .channelUpdate channel slot address (word.data slot)

end OutputWord

end PulseSequencer

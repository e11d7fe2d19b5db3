import PulseSequencer.Binary64.Arithmetic
import PulseSequencer.Quantity

/-!
# Tuning words

The frequency, phase and amplitude of an RF output as the unsigned words that the board takes.
-/

namespace PulseSequencer.Tuning

/-- The highest output frequency in hertz. -/
def maxFrequency : Binary64 := 307200000

/-- The binary64 number nearest to a full turn in radians. -/
def fullTurn : Binary64 := .ofBits 0x401921fb54442d18

def frequency : Quantity :=
  { name := "Frequency", unit := "Hz", low := 0, high := maxFrequency }

def amplitude : Quantity :=
  { name := "Amplitude", unit := "of full scale", low := 0, high := 1 }

/-- A fraction of the full scale of a word of `bits` bits, rounded to nearest. -/
def quantize (bits : Nat) (fraction : Binary64) : Nat :=
  let fullScale : Nat := 1 <<< bits - 1
  min ((fraction * Binary64.ofNat fullScale).round.toNat?.getD fullScale) fullScale

/-- The 32-bit word of a frequency in hertz. -/
def frequencyWord (hertz : Binary64) : Except RangeError UInt32 := do
  let _ ← frequency.check hertz
  return (quantize 32 (hertz / maxFrequency)).toUInt32

/-- The 16-bit word of an amplitude relative to full scale. -/
def amplitudeWord (fraction : Binary64) : Except RangeError UInt16 := do
  let _ ← amplitude.check fraction
  return (quantize 16 fraction).toUInt16

/-- The 12-bit word of a phase in radians. Any finite phase is taken, wrapped into one turn. -/
def phaseWord (radians : Binary64) : Except RangeError UInt16 :=
  if radians.isFinite then
    .ok (quantize 12 (radians.wrap fullTurn / fullTurn)).toUInt16
  else
    .error (.notFinite "Phase" radians)

end PulseSequencer.Tuning

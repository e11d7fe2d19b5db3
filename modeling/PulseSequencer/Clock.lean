import PulseSequencer.Binary64.Arithmetic
import PulseSequencer.Quantity

/-!
# The sequencer clock

Durations are played in ticks of the sequencer clock. A timestamp has a 48-bit tick field, which
bounds the longest duration one timestamp can hold.
-/

namespace PulseSequencer.Clock

/-- The clock period in seconds. -/
def tick : Binary64 := 1 / 153600000

def maxTicks : Nat := 1 <<< 48 - 1

/-- The longest duration of one timestamp in seconds. -/
def maxDuration : Binary64 := tick * Binary64.ofNat maxTicks

def timeStep : Quantity :=
  { name := "Time step", unit := "s", low := 0, high := maxDuration }

/-- The nearest number of ticks for a duration in seconds. -/
def ticks (seconds : Binary64) : Except RangeError Nat := do
  let _ ← timeStep.check seconds
  return min ((seconds / tick).round.toNat?.getD 0) maxTicks

end PulseSequencer.Clock

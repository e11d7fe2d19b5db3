import PulseSequencer.Channel
import PulseSequencer.Quantity

/-!
# Errors of sequence construction and projection
-/

namespace PulseSequencer

/-- Why a sequence cannot be built or projected. -/
inductive SequenceError where
  | invalidChannel (name : String)
  | range (error : RangeError)
  /-- The update is of the other kind than the channel. -/
  | updateKind (channel : Channel)
  | loOffset (value : Binary64)
  | emptyParallel
  | sharedChannel (channel : Channel)
  | parallelProjection

def SequenceError.message : SequenceError → String
  | .invalidChannel name =>
    s!"Invalid channel '{name}', channel must be one of RF0..RF3 or D0..D6"
  | .range error => error.message
  | .updateKind channel =>
    let expected := if channel.isRf then "an analog" else "a digital"
    s!"Channel {channel.name} expects {expected} update"
  | .loOffset value => s!"LO offset must be a finite number, got {messageFormat.text value}"
  | .emptyParallel => "Parallel sequence must have at least one element"
  | .sharedChannel channel =>
    s!"Multiple elements of parallel sequence use channel {channel.name}"
  | .parallelProjection => "Parallel sequence composition is not supported"

/-- The channel of a name, or the error that names it. -/
def Channel.ofName (name : String) : Except SequenceError Channel :=
  match Channel.ofName? name with
  | some channel => .ok channel
  | none => .error (.invalidChannel name)

end PulseSequencer

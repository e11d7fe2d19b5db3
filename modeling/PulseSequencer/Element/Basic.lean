import PulseSequencer.Clock
import PulseSequencer.Duration
import PulseSequencer.Update

/-!
# Sequence elements

A sequence is a tree of elements: timestamps, elements in a row, repetitions, shared bodies, trigger
waits and elements side by side on different channels.
-/

namespace PulseSequencer

/-! ## Timestamps -/

/-- The duration of one timestamp. -/
def timestampDuration : Quantity :=
  { name := "Duration", unit := "s", low := 0, high := Clock.maxDuration }

/-- An interval during which the outputs hold their values. The updates are applied at its start. -/
structure Timestamp where
  duration : Duration
  updates : UpdateMap
  within : Binary64.Within 0 Clock.maxDuration duration.value

namespace Timestamp

/-- A timestamp of an exact duration, if a timestamp can hold it. -/
def ofDuration (duration : Duration) (updates : UpdateMap) : Except SequenceError Timestamp :=
  match timestampDuration.check duration.value with
  | .ok ⟨within⟩ => .ok ⟨duration, updates, within⟩
  | .error error => .error (.range error)

/-- A timestamp of `seconds` with updates by channel name. The duration is checked first. -/
def build (seconds : Binary64) (pairs : List (String × Update)) :
    Except SequenceError Timestamp := do
  let timestamp ← ofDuration (.ofSeconds seconds) .empty
  return { timestamp with updates := ← UpdateMap.ofPairs pairs }

/-- A timestamp that changes no output. -/
def dead (duration : Duration) : Except SequenceError Timestamp :=
  ofDuration duration .empty

def channels (timestamp : Timestamp) : ChannelSet :=
  timestamp.updates.channels

def restrict (timestamp : Timestamp) (group : ChannelSet) : Timestamp :=
  { timestamp with updates := timestamp.updates.restrict group }

instance : BEq Timestamp where
  beq s t := s.duration == t.duration && s.updates == t.updates

end Timestamp

/-! ## Elements -/

inductive Element where
  | timestamp (timestamp : Timestamp)
  /-- Waits, for no time of its own, until all boards are triggered. -/
  | trigger
  | sequence (children : List Element)
  | parallel (children : List Element)
  | repeated (body : Element) (times : UInt32)
  /-- A body stored once in instruction memory and shared by all its occurrences. -/
  | subroutine (body : Element)

namespace Element

instance : Inhabited Element := ⟨.trigger⟩

/-- Several durations one after the other. -/
def total (durations : List Duration) : Duration :=
  durations.foldl (· + ·) .zero

/-- The longest of several durations, the last one among equals. -/
def longest : List Duration → Duration
  | [] => .zero
  | first :: rest =>
    rest.foldl (fun best d => if Seconds.compare best.value d.value = .gt then best else d) first

mutual

/-- How long an element plays, independent of how it is nested. -/
def duration : Element → Duration
  | .timestamp t => t.duration
  | .trigger => .zero
  | .sequence children => total (durations children)
  | .parallel children => longest (durations children)
  | .repeated body times => body.duration.scale times
  | .subroutine body => body.duration

def durations : List Element → List Duration
  | [] => []
  | element :: rest => element.duration :: durations rest

end

mutual

/-- The channels that are updated anywhere in an element. -/
def channels : Element → ChannelSet
  | .timestamp t => t.channels
  | .trigger => .empty
  | .sequence children => allChannels children
  | .parallel children => allChannels children
  | .repeated body _ => body.channels
  | .subroutine body => body.channels

def allChannels : List Element → ChannelSet
  | [] => .empty
  | element :: rest => element.channels ∪ allChannels rest

end

mutual

/-- Whether a trigger wait occurs anywhere in an element. -/
def hasTrigger : Element → Bool
  | .timestamp _ => false
  | .trigger => true
  | .sequence children => anyTrigger children
  | .parallel children => anyTrigger children
  | .repeated body _ => body.hasTrigger
  | .subroutine body => body.hasTrigger

def anyTrigger : List Element → Bool
  | [] => false
  | element :: rest => element.hasTrigger || anyTrigger rest

end

/-- Whether an element has an effect on the board that drives `group`. Trigger waits synchronize
every board. -/
def isRelevant (element : Element) (group : ChannelSet) : Bool :=
  element.hasTrigger || !(element.channels ∩ group).isEmpty

/-! ## Construction -/

instance : Add Element := ⟨fun a b => .sequence [a, b]⟩

/-- The element `times` times over. Repeating a repetition multiplies the counts unless the product
exceeds 32 bits. -/
def repeatTimes (element : Element) (times : UInt32) : Element :=
  match element with
  | .repeated body inner =>
    if inner.toNat * times.toNat < 1 <<< 32 then .repeated body (inner * times)
    else .repeated element times
  | _ => .repeated element times

/-- The channels of elements side by side, which no two of them may share. -/
def disjointChannels (used : ChannelSet) : List Element → Except SequenceError ChannelSet
  | [] => .ok used
  | element :: rest =>
    match (element.channels ∩ used).toList with
    | shared :: _ => .error (.sharedChannel shared)
    | [] => disjointChannels (used ∪ element.channels) rest

/-- Elements played side by side on different channels. -/
def sideBySide (children : List Element) : Except SequenceError Element := do
  if children.isEmpty then throw .emptyParallel
  let _ ← disjointChannels .empty children
  return .parallel children

end Element

end PulseSequencer

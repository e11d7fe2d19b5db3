import PulseSequencer.Element.Basic

/-!
# Projection onto a channel group

The part of a sequence that concerns the board of one channel group. The projection updates
channels of the group only and lasts as long as the whole. What has no effect on the group
collapses into dead time, nested sequences are flattened, and neighbouring timestamps merge where
the outputs cannot tell the difference.
-/

namespace PulseSequencer

/-! ## Dead time -/

/-- Dead time is at most as long as the largest loop over the longest timestamp. -/
def deadTime : Quantity :=
  { name := "Dead time", unit := "s", low := 0
    high := Clock.maxDuration * Binary64.ofNat Duration.maxCount }

/-- The longest timestamp that changes no output. -/
def Timestamp.longestDead : Timestamp :=
  ⟨.ofSeconds Clock.maxDuration, .empty, by decide +kernel⟩

/-- Dead time of a duration. If one timestamp cannot hold it, a loop over the longest timestamp is
followed by the remainder. -/
def Element.dead (duration : Duration) : Except SequenceError Element :=
  if Seconds.compare duration.value Clock.maxDuration = .gt then
    match duration.divide? Clock.maxDuration with
    | none => .error (.range (.outOfRange deadTime duration.value))
    | some (count, rest) =>
      let longest := Element.timestamp .longestDead
      let full := if count = 1 then longest else .repeated longest count.toUInt32
      if rest.isZero then .ok full
      else do
        let rest ← Timestamp.dead rest
        return .sequence [full, .timestamp rest]
  else do
    let timestamp ← Timestamp.dead duration
    return .timestamp timestamp

/-! ## Merging timestamps -/

/-- One timestamp in place of two neighbours. They merge when their updates are equal, or when the
first has no duration and its updates are carried into the second, unless the result would exceed
the longest timestamp. -/
def Timestamp.coalesce (first second : Timestamp) : Option Timestamp :=
  if first.updates != second.updates && !first.duration.isZero then none
  else
    let duration := first.duration + second.duration
    if within : Binary64.Within 0 Clock.maxDuration duration.value then
      some ⟨duration, first.updates.merge second.updates, within⟩
    else none

namespace Element

/-- Puts an element after the elements of a row, which is held last element first. A merged
timestamp may merge again with the one before it. -/
def append : List Element → Element → List Element
  | .timestamp first :: before, .timestamp second =>
    match first.coalesce second with
    | some merged => append before (.timestamp merged)
    | none => .timestamp second :: .timestamp first :: before
  | row, element => element :: row

/-- The elements of a row that an element stands for. -/
def parts : Element → List Element
  | .sequence children => children
  | element => [element]

/-- One sequence of several elements in a row, flattened, without neighbours that merge. -/
def joined (elements : List Element) : Element :=
  .sequence ((elements.flatMap parts).foldl append []).reverse

mutual

/-- The part of an element that concerns the channels of `group`. -/
def project (element : Element) (group : ChannelSet) : Except SequenceError Element :=
  if element.isRelevant group then do
    let projected ← match element with
      | .timestamp t => pure (.timestamp (t.restrict group))
      | .trigger => pure .trigger
      | .sequence children => do pure (joined (← projectAll children group))
      | .parallel _ => throw .parallelProjection
      | .repeated body times =>
        if times = 0 then dead .zero
        else do
          let body ← body.project group
          pure (if times = 1 then body else body.repeatTimes times)
      | .subroutine body => do pure (.subroutine (← body.project group))
    -- A repetition that plays its body zero times leaves nothing for the group.
    if projected.isRelevant group then pure projected else dead projected.duration
  else dead element.duration

/-- Projects elements from the last to the first. The error of the last failing one is reported. -/
def projectAll (elements : List Element) (group : ChannelSet) :
    Except SequenceError (List Element) :=
  match elements with
  | [] => pure []
  | element :: rest => do
    let rest ← projectAll rest group
    let element ← element.project group
    pure (element :: rest)

end

end Element

end PulseSequencer

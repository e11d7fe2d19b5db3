import PulseSequencer.Quantity
import PulseSequencer.Settings.Basic

/-!
# Log events

What the compiler reports while it works.
-/

namespace PulseSequencer

inductive LogLevel where
  | debug
  | info
  | warning
  deriving DecidableEq

inductive LogEvent where
  | compiling (group : String)
  | compiled (group : String) (words mainLength routines routineLength : Nat)
  | groupChanged (change : GroupChange)
  /-- A timestamp of positive duration plays for no tick. -/
  | roundsToZero (seconds : Binary64) (address : Nat)

namespace LogEvent

def level : LogEvent → LogLevel
  | .compiling _ => .info
  | .compiled .. => .debug
  | .groupChanged _ => .warning
  | .roundsToZero .. => .warning

def message : LogEvent → String
  | .compiling group => s!"Compiling channel group {group}"
  | .compiled group words mainLength routines routineLength =>
    s!"Channel group {group}: {words} instruction words, main program {mainLength} addresses, " ++
      s!"{routines} subroutines in {routineLength} addresses"
  | .groupChanged change =>
    let before := GroupChange.listing change.before
    let after := GroupChange.listing change.after
    s!"Setting '{change.setting}' changed from {before} to {after}: {GroupChange.reason}"
  | .roundsToZero seconds address =>
    let seconds := messageFormat.text seconds
    s!"Timestamp of {seconds} s at address {address} is shorter than one tick and rounds to zero"

end LogEvent

end PulseSequencer

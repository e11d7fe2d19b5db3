import PulseSequencer.OutputWord
import PulseSequencer.Program.Graph
import PulseSequencer.Settings.Basic

/-!
# Errors of the compiler
-/

namespace PulseSequencer

/-- The two parts of instruction memory. -/
inductive Region where
  | main
  | subroutines
  deriving DecidableEq

/-- A broken invariant of the compiler itself. -/
inductive Fault where
  | noOpenBody
  | unbalancedBodies
  | unknownEntry (routine : Nat)
  | counterMissing (routine : Nat)
  | countersOutOfSync
  | unknownRoutine (routine : Nat)
  | addressOutside (address : Nat)
  | addressTwice (address : Nat)
  | addressEmpty (address : Nat)

def Fault.message : Fault → String
  | .noOpenBody => "No open scope while building the program graph"
  | .unbalancedBodies => "Unbalanced scopes in program graph"
  | .unknownEntry routine => s!"Unknown subroutine {routine}"
  | .counterMissing routine => s!"Counter of subroutine {routine} used before allocation"
  | .countersOutOfSync => "Loop counter allocation out of sync"
  | .unknownRoutine routine => s!"Call to unknown subroutine {routine}"
  | .addressOutside address => s!"Address {address} outside of memory"
  | .addressTwice address => s!"Address {address} emitted twice"
  | .addressEmpty address => s!"Reserved address {address} holds no instruction"

/-- Why a sequence has no program. -/
inductive CompileError where
  | sequence (error : SequenceError)
  | unsupported (feature : Unsupported)
  | tooManyCounters (group : String) (limit : Nat)
  | memoryOverflow (group : String) (region : Region)
  | settings (error : SettingsError)
  | output (error : OutputError)
  | instruction (error : InstructionError)
  | internal (fault : Fault)

def CompileError.message : CompileError → String
  | .sequence error => error.message
  | .unsupported feature => feature.message
  | .tooManyCounters group limit =>
    s!"Too many nested loops or subroutines in channel group {group}, only {limit} loop " ++
      "counters are available"
  | .memoryOverflow group region =>
    let content := match region with
      | .main => "Sequence"
      | .subroutines => "Subroutines"
    s!"{content} in channel group {group} too long to fit in memory"
  | .settings error => error.message
  | .output error => error.message
  | .instruction error => error.message
  | .internal fault => fault.message

end PulseSequencer

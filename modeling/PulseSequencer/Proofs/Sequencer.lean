import Mathlib.Logic.Relation
import PulseSequencer.Program.Basic

/-!
# The sequencer

The machine that plays a program. It has a program counter and a file of registers, and at an
address of channel updates it sends one datum to each memory slot. `Sequencer.step` is one step and
`Sequencer.run` a number of steps; both are undefined at an address without an instruction.

A run ends at the first address after the main program. `Moves` is a step that does not start there,
and `moves_run` turns a chain of such steps into a run that reaches the end for the first time.
`Completes` is such a run from the start of the program.
-/

namespace PulseSequencer

/-- The slot and the datum of a channel update. -/
def Instruction.update? : Instruction → Option (MemorySlot × UInt32)
  | .channelUpdate _ slot _ data => some (slot, data)
  | _ => none

structure Sequencer where
  pc : UInt16
  registers : UInt16 → UInt32
  /-- What was played so far: for every address the data of its slots. -/
  played : List (List (MemorySlot × UInt32))

namespace Sequencer

/-- The start of a program, with registers that hold anything. -/
def start (registers : UInt16 → UInt32) : Sequencer :=
  ⟨0, registers, []⟩

def write (registers : UInt16 → UInt32) (register : UInt16) (value : UInt32) : UInt16 → UInt32 :=
  fun other => if other = register then value else registers other

/-- Goes on to the next address with a register written. -/
def setRegister (s : Sequencer) (register : UInt16) (value : UInt32) : Sequencer :=
  { s with pc := s.pc + 1, registers := write s.registers register value }

/-- Plays the data of one address. -/
def play (s : Sequencer) (data : List (MemorySlot × UInt32)) : Sequencer :=
  { s with pc := s.pc + 1, played := s.played ++ [data] }

/-- Counts a register down, unless it is zero. While it stays above zero the loop starts over,
otherwise it is left. -/
def jumpOn (s : Sequencer) (counter : UInt8) : Sequencer :=
  let count := s.registers (Instruction.countRegister counter)
  let left := if count = 0 then 0 else count - 1
  let target := if left = 0 then Instruction.exitRegister counter
    else Instruction.startRegister counter
  { s with
    pc := (s.registers target).toUInt16
    registers := write s.registers (Instruction.countRegister counter) left }

/-- Executes the instructions of one address. The first one decides what they are. -/
def execute (s : Sequencer) : List Instruction → Option Sequencer
  | [] => none
  | .channelUpdate channel slot address data :: rest =>
    some (s.play ((.channelUpdate channel slot address data :: rest).filterMap
      Instruction.update?))
  | .setRegister register value :: _ => some (s.setRegister register value)
  | .jump address :: _ => some { s with pc := address }
  | .conditionalJump counter :: _ => some (s.jumpOn counter)

/-- One step of the program. -/
def step (program : Program) (s : Sequencer) : Option Sequencer :=
  s.execute (program.instructionsAt s.pc)

/-- The given number of steps. -/
def run (program : Program) : Nat → Sequencer → Option Sequencer
  | 0, s => some s
  | n + 1, s => (s.step program).bind (run program n)

/-! ## Steps before the end -/

/-- A step from an address other than the end of the main program. -/
def Moves (program : Program) (s t : Sequencer) : Prop :=
  s.pc.toNat ≠ program.mainLength ∧ s.step program = some t

/-- A chain of moves is a run in which no state but the last one may stand at the end. -/
theorem moves_run {program : Program} {s t : Sequencer}
    (moves : Relation.ReflTransGen (Moves program) s t) :
    ∃ n, run program n s = some t ∧
      ∀ k < n, ∃ m, run program k s = some m ∧ m.pc.toNat ≠ program.mainLength := by
  induction moves using Relation.ReflTransGen.head_induction_on with
  | refl => exact ⟨0, rfl, by simp⟩
  | @head s m first _ ih =>
    obtain ⟨before, step⟩ := first
    obtain ⟨n, reached, earlier⟩ := ih
    refine ⟨n + 1, by rw [run, step]; exact reached, fun k below => ?_⟩
    cases k with
    | zero => exact ⟨s, rfl, before⟩
    | succ k =>
      obtain ⟨state, reachedState, beforeState⟩ := earlier k (by omega)
      exact ⟨state, by rw [run, step]; exact reachedState, beforeState⟩

/-- The state in which a program, started with the registers, first reaches its end. -/
def Completes (program : Program) (registers : UInt16 → UInt32) (final : Sequencer) : Prop :=
  ∃ steps, run program steps (.start registers) = some final ∧
    final.pc.toNat = program.mainLength ∧
    ∀ earlier < steps, ∃ s, run program earlier (.start registers) = some s ∧
      s.pc.toNat ≠ program.mainLength

end Sequencer

end PulseSequencer

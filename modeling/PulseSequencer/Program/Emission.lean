import PulseSequencer.LogEvent
import PulseSequencer.Program.Basic

/-!
# Emission

The instructions of a laid out program graph, address by address.
-/

namespace PulseSequencer

/-- The instructions of one address. -/
structure Cell where
  address : Nat
  instructions : List Instruction

def Cell.words (cell : Cell) : List ProgramWord :=
  cell.instructions.map fun instruction => ⟨cell.address.toUInt16, instruction⟩

/-- Cells at consecutive addresses with one instruction each. -/
def Cell.row (start : Nat) (instructions : List Instruction) : List Cell :=
  (instructions.zipIdx start).map fun (instruction, address) => ⟨address, [instruction]⟩

/-- What a part of the graph turns into. -/
structure Emission where
  cells : List Cell
  events : List LogEvent

namespace Emission

def empty : Emission := ⟨[], []⟩

def append (first second : Emission) : Emission :=
  ⟨first.cells ++ second.cells, first.events ++ second.events⟩

instance : Append Emission := ⟨append⟩

/-- What a call needs to know of a subroutine. -/
structure Target where
  address : Nat
  counter : Nat

/-- The board that a program is emitted for. -/
structure Board where
  rf : Nat
  targets : List Target

/-- One timestamp at an address. -/
def timestamp (board : Board) (timestamp : Timestamp) (address : Nat) :
    Except CompileError (Cell × Option LogEvent) :=
  match OutputWord.ofTimestamp timestamp board.rf with
  | .error error => .error (.output error)
  | .ok word =>
    let seconds := timestamp.duration.value
    let event := if word.ticks = 0 ∧ 0 < seconds then some (.roundsToZero seconds address) else none
    .ok (⟨address, word.instructions board.rf.toUInt8 address.toUInt16⟩, event)

def block (board : Board) (start : Nat) (timestamps : List Timestamp) :
    Except CompileError Emission := do
  let played ← (timestamps.zipIdx start).mapM fun (t, address) => timestamp board t address
  return ⟨played.map Prod.fst, played.filterMap Prod.snd⟩

def call (board : Board) (start routine : Nat) : Except CompileError Emission :=
  match board.targets[routine]? with
  | none => .error (.internal (.unknownRoutine routine))
  | some target =>
    match Instruction.callControl start target.address target.counter.toUInt8 with
    | .error error => .error (.instruction error)
    | .ok instructions => .ok ⟨Cell.row start instructions, []⟩

/-- A loop around the emission of its body. -/
def loop (start length : Nat) (times : UInt32) (counter : Nat) (body : Emission) :
    Except CompileError Emission :=
  match Instruction.loopControl start length times counter.toUInt8 with
  | .error error => .error (.instruction error)
  | .ok control =>
    .ok (⟨Cell.row start control.preamble, []⟩ ++ body
      ++ ⟨Cell.row (start + 3 + length) [control.closing], []⟩)

mutual

/-- The emission of a node at an address. -/
def node (board : Board) (start : Nat) : Node → Except CompileError Emission
  | .block timestamps => block board start timestamps
  | .loop times counter body => do
    loop start (Node.lengthAll body) times counter (← nodes board (start + 3) body)
  | .call routine => call board start routine

/-- The emission of nodes in a row. -/
def nodes (board : Board) (start : Nat) : List Node → Except CompileError Emission
  | [] => .ok empty
  | first :: rest => do
    let emitted ← node board start first
    return emitted ++ (← nodes board (start + first.length) rest)

end

/-- A subroutine in its place, closed by a jump that falls through to the return address. -/
def routine (board : Board) (routine : Routine) (range : AddressRange) :
    Except CompileError Emission := do
  let body ← nodes board range.first routine.body
  match Instruction.jumpOn routine.counter.toUInt8 with
  | .error error => throw (.instruction error)
  | .ok closing => return body ++ ⟨Cell.row range.last [closing], []⟩

def routines (board : Board) : List (Routine × AddressRange) → Except CompileError Emission
  | [] => .ok empty
  | (first, range) :: rest => do
    let emitted ← routine board first range
    return emitted ++ (← routines board rest)

/-! ## Memory -/

/-- Marks an address as taken. -/
def occupy (taken : Array Bool) (address : Nat) : Except Fault (Array Bool) :=
  if inside : address < taken.size then
    if taken[address] then .error (.addressTwice address) else .ok (taken.set address true)
  else .error (.addressOutside address)

/-- Checks that every address is emitted once, in a memory up to `top`, and that no address of the
layout is left out. -/
def checkMemory (top : Nat) (layout : Layout) (cells : List Cell) : Except Fault Unit := do
  let free := Array.replicate (top + 1) false
  let taken ← cells.foldlM (fun taken cell => occupy taken cell.address) free
  let reserved := List.range layout.mainLength ++ layout.ranges.flatMap AddressRange.addresses
  match reserved.find? fun address => !taken.getD address false with
  | some address => throw (.addressEmpty address)
  | none => return ()

end Emission

namespace ProgramGraph

/-- The program of a graph with counters and a layout, for the board that drives output `rf` and has
a memory up to `top`. -/
def emit (graph : ProgramGraph) (layout : Layout) (rf top : Nat) :
    Except CompileError (Program × List LogEvent) := do
  let placed := graph.routines.zip layout.ranges
  let targets := placed.map fun (routine, range) => ⟨range.first, routine.counter⟩
  let board : Emission.Board := ⟨rf, targets⟩
  let main ← Emission.nodes board 0 graph.main
  let emission := main ++ (← Emission.routines board placed)
  match Emission.checkMemory top layout emission.cells with
  | .error fault => throw (.internal fault)
  | .ok () => return (.ofWords (emission.cells.flatMap Cell.words) layout, emission.events)

end ProgramGraph

end PulseSequencer

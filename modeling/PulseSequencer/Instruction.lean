/-!
# Sequencer instructions

Every instruction is a record of 64 bits. The two low bits of its last byte select the kind:

| opcode | instruction      | bytes 0 to 3 | bytes 4 and 5    | byte 6              |
|--------|------------------|--------------|------------------|---------------------|
| `00`   | channel update   | data         | address          | `slot << 4 | channel` |
| `01`   | set register     | value        | register         | 0                   |
| `10`   | conditional jump | 0            | counter register | 0                   |
| `11`   | jump             | 0            | address          | 0                   |

Fields of several bytes have the low byte first.
-/

namespace PulseSequencer

/-! ## Instructions -/

/-- The four memories that a timestamp is spread over. They share one address. -/
inductive MemorySlot where
  /-- The low 32 bits of the duration in ticks. -/
  | ticksLow
  /-- The high 16 bits of the duration, the digital outputs and the trigger flag. -/
  | ticksHigh
  /-- The frequency word. -/
  | frequency
  /-- The phase and amplitude words and the enable bits of the RF output. -/
  | phaseAmplitude
  deriving DecidableEq

namespace MemorySlot

def index : MemorySlot → UInt8
  | .ticksLow => 0
  | .ticksHigh => 1
  | .frequency => 2
  | .phaseAmplitude => 3

def ofIndex? (index : UInt8) : Option MemorySlot :=
  if index = 0 then some .ticksLow
  else if index = 1 then some .ticksHigh
  else if index = 2 then some .frequency
  else if index = 3 then some .phaseAmplitude
  else none

def all : List MemorySlot :=
  [.ticksLow, .ticksHigh, .frequency, .phaseAmplitude]

end MemorySlot

inductive Instruction where
  | channelUpdate (channel : UInt8) (slot : MemorySlot) (address : UInt16) (data : UInt32)
  | setRegister (register : UInt16) (value : UInt32)
  /-- Decrements the counter register if it is not zero. While it stays above zero, goes to the
  address in the start register, otherwise to the address in the exit register. A counter that was
  set to `n` plays a body `n` times, and one that was set to zero falls through at once. -/
  | conditionalJump (counter : UInt8)
  | jump (address : UInt16)
  deriving DecidableEq

/-- Why there is no such instruction. -/
inductive InstructionError where
  | invalidSlot (index : UInt8)
  | invalidCounterRegister (register : UInt16)
  | addressTooHigh (address : Nat)
  | counterTooHigh (counter : UInt8)
  | emptyLoop

/-! ## Limits of the sequencer -/

/-- The number of bits of an instruction address. -/
def addressWidth : Nat := 14

def maxAddress : Nat := 1 <<< addressWidth - 1

/-- The number of hardware loop counters. -/
def hardwareCounters : Nat := 8

def InstructionError.message : InstructionError → String
  | .invalidSlot index => s!"Invalid memory slot {index.toNat}"
  | .invalidCounterRegister register =>
    s!"Invalid counter register 0x{String.ofList (Nat.toDigits 16 register.toNat)}"
  | .addressTooHigh address =>
    s!"Instruction address {address} exceeds the maximum address {maxAddress}"
  | .counterTooHigh counter =>
    s!"Loop counter {counter.toNat} out of range, the sequencer has {hardwareCounters} counters"
  | .emptyLoop => "A hardware loop must run at least once"

namespace Instruction

/-! ## Encoding -/

/-- The fields of an instruction record. -/
structure Fields where
  low : UInt32
  middle : UInt16
  detail : UInt8
  opcode : UInt8
  deriving DecidableEq

/-- The last byte of a channel update. -/
def updateMarker : UInt8 := 0xa0

def fields : Instruction → Fields
  | .channelUpdate channel slot address data =>
    ⟨data, address, (slot.index <<< 4) ||| channel, updateMarker⟩
  | .setRegister register value => ⟨value, register, 0, 1⟩
  | .conditionalJump counter => ⟨0, counter.toUInt16, 0, 2⟩
  | .jump address => ⟨0, address, 0, 3⟩

def ofFields (fields : Fields) : Except InstructionError Instruction :=
  let opcode := fields.opcode &&& 3
  if opcode = 0 then
    match MemorySlot.ofIndex? (fields.detail >>> 4) with
    | some slot => .ok (.channelUpdate (fields.detail &&& 0xf) slot fields.middle fields.low)
    | none => .error (.invalidSlot (fields.detail >>> 4))
  else if opcode = 1 then .ok (.setRegister fields.middle fields.low)
  else if opcode = 2 then
    if fields.middle < 256 then .ok (.conditionalJump fields.middle.toUInt8)
    else .error (.invalidCounterRegister fields.middle)
  else .ok (.jump fields.middle)

/-- Byte `index` of a number, the low byte first. -/
private def byteOf (n index : Nat) : UInt8 :=
  (n >>> (8 * index) % 256).toUInt8

def Fields.toBytes (fields : Fields) : Vector UInt8 8 :=
  let low := fields.low.toNat
  let middle := fields.middle.toNat
  #v[byteOf low 0, byteOf low 1, byteOf low 2, byteOf low 3, byteOf middle 0, byteOf middle 1,
    fields.detail, fields.opcode]

def Fields.ofBytes (bytes : Vector UInt8 8) : Fields :=
  let byte (index : Fin 8) : Nat := (bytes.get index).toNat
  { low := (byte 0 + byte 1 <<< 8 + byte 2 <<< 16 + byte 3 <<< 24).toUInt32
    middle := (byte 4 + byte 5 <<< 8).toUInt16
    detail := bytes.get 6
    opcode := bytes.get 7 }

def toBytes (instruction : Instruction) : Vector UInt8 8 :=
  instruction.fields.toBytes

def ofBytes (bytes : Vector UInt8 8) : Except InstructionError Instruction :=
  ofFields (.ofBytes bytes)

/-! ## Control flow -/

/-- Holds the remaining number of passes of the loop that uses a counter. -/
def countRegister (counter : UInt8) : UInt16 := counter.toUInt16

/-- Holds the address after a loop, or the return address of a subroutine. -/
def exitRegister (counter : UInt8) : UInt16 := 0x10 + counter.toUInt16

/-- Holds the first address of a loop body. -/
def startRegister (counter : UInt8) : UInt16 := 0x20 + counter.toUInt16

def checkAddress (address : Nat) : Except InstructionError UInt16 :=
  if address ≤ maxAddress then .ok address.toUInt16 else .error (.addressTooHigh address)

def checkCounter (counter : UInt8) : Except InstructionError Unit :=
  if counter.toNat < hardwareCounters then .ok () else .error (.counterTooHigh counter)

def jumpTo (address : Nat) : Except InstructionError Instruction :=
  return .jump (← checkAddress address)

def jumpOn (counter : UInt8) : Except InstructionError Instruction := do
  checkCounter counter
  return .conditionalJump counter

/-- The instructions around the body of a loop: three register writes before it and a conditional
jump after it. -/
structure LoopControl where
  preamble : List Instruction
  closing : Instruction

/-- The control of a loop at `start` that plays a body of `length` addresses `times` times.

The preamble takes the addresses from `start` to `start + 2` and the closing jump stands at
`start + 3 + length`. The loop starts over at the first address of the body, because the preamble
would set the count again, and is left to the first address after the closing jump. -/
def loopControl (start length : Nat) (times : UInt32) (counter : UInt8) :
    Except InstructionError LoopControl := do
  if times = 0 then throw .emptyLoop
  checkCounter counter
  let bodyStart ← checkAddress (start + 3)
  let exit ← checkAddress (start + length + 4)
  return {
    preamble := [
      .setRegister (countRegister counter) times,
      .setRegister (exitRegister counter) exit.toUInt32,
      .setRegister (startRegister counter) bodyStart.toUInt32]
    closing := .conditionalJump counter }

/-- The call at `start` of a subroutine at `target`. The counter is set to zero, so that the closing
jump of the body falls through to the return address. -/
def callControl (start target : Nat) (counter : UInt8) :
    Except InstructionError (List Instruction) := do
  checkCounter counter
  let returnAddress ← checkAddress (start + 3)
  let jump ← jumpTo target
  return [
    .setRegister (countRegister counter) 0,
    .setRegister (exitRegister counter) returnAddress.toUInt32,
    jump]

end Instruction

end PulseSequencer

import PulseSequencer.Program.Layout

/-!
# Programs

The instructions of one board, sorted by address. A timestamp writes one channel update for each
memory slot, so its address holds several words.
-/

namespace PulseSequencer

structure ProgramWord where
  address : UInt16
  instruction : Instruction
  deriving DecidableEq

structure Program where
  words : List ProgramWord
  /-- The number of addresses of the main program, which starts at address 0. -/
  mainLength : Nat
  /-- The addresses of the subroutines in layout order. -/
  ranges : List AddressRange

namespace Program

/-- A program of words in any order. Words of one address keep their order. -/
def ofWords (words : List ProgramWord) (layout : Layout) : Program :=
  { words := words.mergeSort fun a b => a.address ≤ b.address
    mainLength := layout.mainLength
    ranges := layout.ranges }

/-- The instructions stored at an address. -/
def instructionsAt (program : Program) (address : UInt16) : List Instruction :=
  let fromAddress := program.words.dropWhile fun word => word.address < address
  (fromAddress.takeWhile fun word => word.address = address).map ProgramWord.instruction

/-- The binary image: eight bytes for each word, in address order. -/
def toBytes (program : Program) : List UInt8 :=
  program.words.flatMap fun word => word.instruction.toBytes.toList

end Program

end PulseSequencer

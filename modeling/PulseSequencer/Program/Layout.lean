import PulseSequencer.CompileError

/-!
# Memory layout

Subroutines fill the instruction memory from the top, one below the other in table order. The main
program starts at address 0, and its first free address has to lie below all subroutines.
-/

namespace PulseSequencer

/-- The addresses from `first` to `last`, both included. -/
structure AddressRange where
  first : Nat
  last : Nat
  deriving DecidableEq

def AddressRange.size (range : AddressRange) : Nat :=
  range.last - range.first + 1

def AddressRange.addresses (range : AddressRange) : List Nat :=
  List.range' range.first range.size

structure Layout where
  mainLength : Nat
  ranges : List AddressRange

namespace ProgramGraph

/-- Places subroutines below `watermark`, each directly below the one before. Also returns the
lowest address that is taken. -/
def placeRoutines (watermark : Nat) :
    List Routine → Except Region (List AddressRange × Nat)
  | [] => .ok ([], watermark)
  | routine :: rest =>
    if watermark < routine.length then .error .subroutines
    else do
      let first := watermark - routine.length
      let (ranges, lowest) ← placeRoutines first rest
      return (⟨first, watermark - 1⟩ :: ranges, lowest)

/-- The layout of a graph below the address `top`, or the region that does not fit. -/
def layout (graph : ProgramGraph) (top : Nat) : Except Region Layout := do
  let (ranges, lowest) ← placeRoutines top graph.routines
  let mainLength := Node.lengthAll graph.main
  if mainLength < lowest then return ⟨mainLength, ranges⟩ else throw .main

end ProgramGraph

end PulseSequencer

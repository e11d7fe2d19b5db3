import PulseSequencer.Proofs.Program.MemoryMap
import PulseSequencer.Proofs.Program.Rendering
import PulseSequencer.Proofs.Program.Totality

/-!
# Relocation

The limits of the settings decide whether a program fits, and never what it does. A larger memory
moves the subroutines up, because they are placed from its end, and leaves the main program where it
is. Addresses in the code move with the part of the program that they point to: jumps lead into
subroutines, and a return address lies in the part that holds the loop or the call.

Results:
1. `Program.relocate`: a program with its subroutines moved up.
2. `Emission.relocate_nodes`, `Emission.relocate_routines`: emitted cells move with their start.
3. `ProgramGraph.Emitted.relocate`: so does a whole program, sorted by address.
4. `compileGroup_relocates`: higher limits relocate the program of a channel group.
-/

namespace PulseSequencer

/-! ## Relocated programs -/

/-- The addresses of a subroutine that is moved up. -/
def AddressRange.shift (distance : Nat) (range : AddressRange) : AddressRange :=
  ⟨range.first + distance, range.last + distance⟩

namespace Instruction

/-- The registers for the addresses at which loops start over and to which loops and subroutines
return. -/
def holdsAddress (register : UInt16) : Bool :=
  (List.range hardwareCounters).any fun counter =>
    register.toNat = 0x10 + counter || register.toNat = 0x20 + counter

/-- An instruction at an address that moves by `own`, while the subroutines move by `distance`. -/
def relocate (own distance : Nat) : Instruction → Instruction
  | .channelUpdate channel slot address data =>
    .channelUpdate channel slot (address + own.toUInt16) data
  | .setRegister register value =>
    .setRegister register (if holdsAddress register then value + own.toUInt32 else value)
  | .conditionalJump counter => .conditionalJump counter
  | .jump address => .jump (address + distance.toUInt16)

end Instruction

def ProgramWord.relocate (own distance : Nat) (word : ProgramWord) : ProgramWord :=
  ⟨word.address + own.toUInt16, word.instruction.relocate own distance⟩

namespace Program

/-- Whether an address lies in a subroutine. -/
def inRoutine (program : Program) (address : UInt16) : Bool :=
  program.ranges.any fun range => range.first ≤ address.toNat && address.toNat ≤ range.last

/-- A word of a program whose subroutines are moved up. -/
def relocateWord (program : Program) (distance : Nat) (word : ProgramWord) : ProgramWord :=
  word.relocate (if program.inRoutine word.address then distance else 0) distance

/-- A program with its subroutines moved up. The words keep their order. -/
def relocate (distance : Nat) (program : Program) : Program :=
  { words := program.words.map (program.relocateWord distance)
    mainLength := program.mainLength
    ranges := program.ranges.map (AddressRange.shift distance) }

end Program

/-! ## Control instructions -/

namespace Instruction

theorem holdsAddress_iff {register : UInt16} : holdsAddress register = true ↔
    ∃ counter < hardwareCounters, register.toNat = 0x10 + counter ∨
      register.toNat = 0x20 + counter := by
  simp [holdsAddress]

variable {counter : UInt8} (below : counter.toNat < hardwareCounters)

include below

theorem holdsAddress_countRegister : holdsAddress (countRegister counter) = false := by
  rw [Bool.eq_false_iff, ne_eq, holdsAddress_iff]
  rintro ⟨other, _, same⟩
  rw [(Sequencer.toNat_controlRegisters below).1] at same
  unfold hardwareCounters at below
  omega

theorem holdsAddress_exitRegister : holdsAddress (exitRegister counter) = true :=
  holdsAddress_iff.mpr ⟨_, below, .inl (Sequencer.toNat_controlRegisters below).2.1⟩

theorem holdsAddress_startRegister : holdsAddress (startRegister counter) = true :=
  holdsAddress_iff.mpr ⟨_, below, .inr (Sequencer.toNat_controlRegisters below).2.2⟩

end Instruction

theorem toUInt16_add (address own : Nat) :
    (address + own).toUInt16 = address.toUInt16 + own.toUInt16 :=
  UInt16.ofNat_add address own

/-- An address of the sequencer in a register moves without wrapping around. -/
theorem toUInt32_add {address own : Nat} (inside : address + own ≤ maxAddress) :
    (address + own).toUInt16.toUInt32 = address.toUInt16.toUInt32 + own.toUInt32 := by
  have small : address + own < 2 ^ 16 := Nat.lt_of_le_of_lt inside (by decide)
  apply UInt32.toNat_inj.mp
  rw [UInt32.toNat_add, UInt16.toNat_toUInt32, UInt16.toNat_toUInt32]
  show (address + own) % 2 ^ 16 = (address % 2 ^ 16 + own % 2 ^ 32) % 2 ^ 32
  omega

namespace Instruction

variable {own distance start target length : Nat} {times : UInt32} {counter : UInt8}

theorem relocate_callControl {instructions moved : List Instruction}
    (ok : callControl start target counter = .ok instructions)
    (okMoved : callControl (start + own) (target + distance) counter = .ok moved) :
    moved = instructions.map (relocate own distance) := by
  obtain ⟨below, _, _, rfl⟩ := callControl_eq_ok_iff.mp ok
  obtain ⟨_, inside, _, rfl⟩ := callControl_eq_ok_iff.mp okMoved
  rw [Nat.add_right_comm] at inside
  simp only [List.map_cons, List.map_nil, relocate, holdsAddress_countRegister below,
    holdsAddress_exitRegister below, if_true, Bool.false_eq_true, if_false]
  rw [Nat.add_right_comm start own 3, toUInt32_add inside, toUInt16_add target distance]

theorem relocate_loopControl {control moved : LoopControl}
    (ok : loopControl start length times counter = .ok control)
    (okMoved : loopControl (start + own) length times counter = .ok moved) :
    moved.preamble = control.preamble.map (relocate own distance) ∧
      moved.closing = control.closing.relocate own distance := by
  obtain ⟨_, below, _, rfl⟩ := loopControl_eq_ok_iff.mp ok
  obtain ⟨_, _, inside, rfl⟩ := loopControl_eq_ok_iff.mp okMoved
  refine ⟨?_, rfl⟩
  have exit : start + own + length + 4 = start + length + 4 + own := by omega
  have body : start + own + 3 = start + 3 + own := by omega
  rw [exit] at inside
  simp only [List.map_cons, List.map_nil, relocate, holdsAddress_countRegister below,
    holdsAddress_exitRegister below, holdsAddress_startRegister below, if_true,
    Bool.false_eq_true, if_false]
  rw [exit, body, toUInt32_add inside, toUInt32_add (show start + 3 + own ≤ maxAddress by omega)]

end Instruction

/-! ## Emitted cells -/

def Cell.relocate (own distance : Nat) (cell : Cell) : Cell :=
  ⟨cell.address + own, cell.instructions.map (Instruction.relocate own distance)⟩

theorem Cell.words_relocate (own distance : Nat) (cell : Cell) :
    (cell.relocate own distance).words = cell.words.map (ProgramWord.relocate own distance) := by
  rw [words, words, List.map_map, relocate, List.map_map, toUInt16_add]
  rfl

theorem Cell.row_relocate (own distance start : Nat) (instructions : List Instruction) :
    row (start + own) (instructions.map (Instruction.relocate own distance))
      = (row start instructions).map (relocate own distance) := by
  induction instructions generalizing start with
  | nil => rfl
  | cons instruction rest ih =>
    have later := ih (start + 1)
    rw [Nat.add_right_comm] at later
    exact congrArg (⟨start + own, [instruction.relocate own distance]⟩ :: ·) later

namespace Emission

/-- The board after the subroutines have moved up. -/
def Board.relocate (distance : Nat) (board : Board) : Board :=
  ⟨board.rf, board.targets.map fun target => ⟨target.address + distance, target.counter⟩⟩

variable {board : Board} {own distance start : Nat} {emission moved : Emission}

theorem relocate_wordCell (board : Board) (own distance start : Nat) (word : OutputWord) :
    wordCell (board.relocate distance) word (start + own)
      = (wordCell board word start).relocate own distance := by
  unfold wordCell Cell.relocate
  rw [OutputWord.instructions, OutputWord.instructions, List.map_map, toUInt16_add]
  rfl

theorem relocate_block {timestamps : List Timestamp}
    (ok : block board start timestamps = .ok emission)
    (okMoved : block (board.relocate distance) (start + own) timestamps = .ok moved) :
    moved.cells = emission.cells.map (Cell.relocate own distance) := by
  induction timestamps generalizing start emission moved with
  | nil => rw [block_nil_eq_ok ok, block_nil_eq_ok okMoved, List.map_nil]
  | cons t rest ih =>
    obtain ⟨word, others, found, foundRest, cells⟩ := block_cons_eq_ok ok
    obtain ⟨word', others', found', foundRest', cells'⟩ := block_cons_eq_ok okMoved
    obtain rfl : word = word' := Except.ok.inj (found.symm.trans found')
    rw [Nat.add_right_comm] at foundRest'
    rw [cells, cells', List.map_cons, relocate_wordCell, ih foundRest foundRest']

theorem relocate_call {index : Nat} (ok : call board start index = .ok emission)
    (okMoved : call (board.relocate distance) (start + own) index = .ok moved) :
    moved.cells = emission.cells.map (Cell.relocate own distance) := by
  obtain ⟨target, instructions, found, control, cells⟩ := call_eq_ok ok
  obtain ⟨target', instructions', found', control', cells'⟩ := call_eq_ok okMoved
  rw [Board.relocate, List.getElem?_map, found] at found'
  cases found'
  rw [cells, cells', Instruction.relocate_callControl control control', Cell.row_relocate]

mutual

theorem relocate_node {n : Node} {start : Nat} {emission moved : Emission}
    (ok : node board start n = .ok emission)
    (okMoved : node (board.relocate distance) (start + own) n = .ok moved) :
    moved.cells = emission.cells.map (Cell.relocate own distance) := by
  match n, ok, okMoved with
  | .block timestamps, ok, okMoved => exact relocate_block ok okMoved
  | .loop times counter body, ok, okMoved =>
    obtain ⟨control, inner, foundControl, foundInner, cells⟩ := node_loop_eq_ok ok
    obtain ⟨control', inner', foundControl', foundInner', cells'⟩ := node_loop_eq_ok okMoved
    obtain ⟨preamble, closing⟩ :=
      @Instruction.relocate_loopControl _ distance _ _ _ _ _ _ foundControl foundControl'
    rw [Nat.add_right_comm] at foundInner'
    have last := Cell.row_relocate own distance (start + 3 + Node.lengthAll body) [control.closing]
    rw [Nat.add_right_comm _ _ own, Nat.add_right_comm start] at last
    rw [cells, cells', List.map_append, List.map_append, preamble, closing,
      relocate_nodes foundInner foundInner', Cell.row_relocate]
    exact congrArg _ last
  | .call index, ok, okMoved => exact relocate_call ok okMoved

/-- Nodes that start further up are emitted further up. -/
theorem relocate_nodes {ns : List Node} {start : Nat} {emission moved : Emission}
    (ok : nodes board start ns = .ok emission)
    (okMoved : nodes (board.relocate distance) (start + own) ns = .ok moved) :
    moved.cells = emission.cells.map (Cell.relocate own distance) := by
  match ns, ok, okMoved with
  | [], ok, okMoved =>
    cases ok
    cases okMoved
    rfl
  | first :: rest, ok, okMoved =>
    obtain ⟨head, others, foundHead, foundRest, cells⟩ := nodes_cons_eq_ok ok
    obtain ⟨head', others', foundHead', foundRest', cells'⟩ := nodes_cons_eq_ok okMoved
    rw [Nat.add_right_comm] at foundRest'
    rw [cells, cells', List.map_append, relocate_node foundHead foundHead',
      relocate_nodes foundRest foundRest']

end

/-- Subroutines are emitted where they are placed. -/
theorem relocate_routines {placed : List (Routine × AddressRange)} {emission moved : Emission}
    (ok : routines board placed = .ok emission)
    (okMoved : routines (board.relocate distance)
      (placed.map (Prod.map id (AddressRange.shift distance))) = .ok moved) :
    moved.cells = emission.cells.map (Cell.relocate distance distance) := by
  induction placed generalizing emission moved with
  | nil =>
    cases ok
    cases okMoved
    rfl
  | cons pair rest ih =>
    obtain ⟨head, others, foundHead, foundRest, cells⟩ := routines_cons_eq_ok ok
    obtain ⟨head', others', foundHead', foundRest', cells'⟩ := routines_cons_eq_ok okMoved
    obtain ⟨body, foundBody, _, headCells⟩ := routine_eq_ok foundHead
    obtain ⟨body', foundBody', _, headCells'⟩ := routine_eq_ok foundHead'
    rw [cells, cells', headCells, headCells', ih foundRest foundRest',
      relocate_nodes foundBody foundBody', List.map_append, List.map_append, ← Cell.row_relocate]
    rfl

end Emission

/-! ## Layouts -/

def Layout.shift (distance : Nat) (layout : Layout) : Layout :=
  ⟨layout.mainLength, layout.ranges.map (AddressRange.shift distance)⟩

namespace ProgramGraph

theorem placeRoutines_shift {top lowest : Nat} {routines : List Routine}
    {ranges : List AddressRange} (ok : placeRoutines top routines = .ok (ranges, lowest))
    (distance : Nat) : placeRoutines (top + distance) routines
      = .ok (ranges.map (AddressRange.shift distance), lowest + distance) := by
  induction routines generalizing top ranges with
  | nil =>
    cases ok
    rfl
  | cons routine rest ih =>
    rw [placeRoutines] at ok ⊢
    split at ok
    · cases ok
    · next fits =>
      simp only [Except.bind_eq_ok_iff, Except.pure_eq_ok, Except.ok.injEq, Prod.mk.injEq] at ok
      obtain ⟨⟨others, low⟩, found, rfl, rfl⟩ := ok
      have positive := routine.length_pos
      have first : top + distance - routine.length = top - routine.length + distance := by omega
      have last : top + distance - 1 = top - 1 + distance := by omega
      rw [if_neg (by omega), first, last]
      exact Except.bind_eq_ok_iff.mpr ⟨_, ih found, rfl⟩

/-- A larger memory moves the subroutines up. -/
theorem layout_shift {graph : ProgramGraph} {top : Nat} {layout : Layout}
    (ok : graph.layout top = .ok layout) (distance : Nat) :
    graph.layout (top + distance) = .ok (layout.shift distance) := by
  simp only [ProgramGraph.layout, Except.bind_eq_ok_iff] at ok ⊢
  obtain ⟨⟨ranges, lowest⟩, found, ok⟩ := ok
  refine ⟨_, placeRoutines_shift found distance, ?_⟩
  dsimp only at ok ⊢
  split at ok
  · next below =>
    cases ok
    exact if_pos (Nat.lt_add_right distance below)
  · cases ok

theorem zip_shift (graph : ProgramGraph) (layout : Layout) (distance : Nat) :
    graph.routines.zip (layout.shift distance).ranges = (graph.routines.zip layout.ranges).map
      (Prod.map id (AddressRange.shift distance)) :=
  List.zip_map_right

theorem board_shift (graph : ProgramGraph) (layout : Layout) (rf distance : Nat) :
    graph.board (layout.shift distance) rf = (graph.board layout rf).relocate distance := by
  rw [board, zip_shift, List.map_map, board, Emission.Board.relocate, List.map_map]
  rfl

end ProgramGraph

/-! ## Regions of a program -/

theorem AddressRange.Stacked.floor_lt {floor top : Nat} {ranges : List AddressRange}
    (stacked : Stacked floor top ranges) : floor < top := by
  induction ranges generalizing top with
  | nil => exact stacked
  | cons range rest ih =>
    obtain ⟨order, last, later⟩ := stacked
    have below := ih later
    omega

theorem AddressRange.Stacked.between {floor top : Nat} {ranges : List AddressRange}
    (stacked : Stacked floor top ranges) :
    ∀ range ∈ ranges, floor < range.first ∧ range.last < top := by
  induction ranges generalizing top with
  | nil => simp
  | cons range rest ih =>
    obtain ⟨order, last, later⟩ := stacked
    refine List.forall_mem_cons.mpr ⟨⟨later.floor_lt, by omega⟩, fun other present => ?_⟩
    have inside := ih later other present
    omega

namespace Program

variable {program : Program} {channel : UInt8} {top limit distance : Nat}

theorem inRoutine_iff {address : UInt16} : program.inRoutine address = true ↔
    ∃ range ∈ program.ranges, range.first ≤ address.toNat ∧ address.toNat ≤ range.last := by
  simp [inRoutine]

/-- A word stands in the main program or above it, in a subroutine. -/
theorem MemoryMap.region (mapped : program.MemoryMap channel top limit) {word : ProgramWord}
    (present : word ∈ program.words) :
    program.inRoutine word.address = false ∧ word.address.toNat < program.mainLength ∨
    program.inRoutine word.address = true ∧ program.mainLength < word.address.toNat ∧
      word.address.toNat < top := by
  rcases (mapped.occupied _).mp ⟨word, present, rfl⟩ with inMain | ⟨range, inRanges, low, high⟩
  · refine .inl ⟨Bool.eq_false_iff.mpr fun inside => ?_, inMain⟩
    obtain ⟨range, inRanges, low, _⟩ := inRoutine_iff.mp inside
    have between := mapped.stacked.between range inRanges
    omega
  · have between := mapped.stacked.between range inRanges
    exact .inr ⟨inRoutine_iff.mpr ⟨range, inRanges, low, high⟩, by omega, by omega⟩

/-- Moving the subroutines up keeps the order of the words. -/
theorem MemoryMap.relocateWord_le_iff (mapped : program.MemoryMap channel top limit)
    (small : top + distance < UInt16.size) {a b : ProgramWord} (inA : a ∈ program.words)
    (inB : b ∈ program.words) :
    (program.relocateWord distance a).address ≤ (program.relocateWord distance b).address ↔
      a.address ≤ b.address := by
  have moved : ∀ word ∈ program.words, (program.relocateWord distance word).address.toNat =
      word.address.toNat + if program.inRoutine word.address then distance else 0 := by
    intro word present
    have floor := mapped.stacked.floor_lt
    have region := mapped.region present
    rw [relocateWord, ProgramWord.relocate, UInt16.toNat_add]
    show (_ + _ % 2 ^ 16) % 2 ^ 16 = _
    unfold UInt16.size at small
    split <;> omega
  rw [UInt16.le_iff_toNat_le, UInt16.le_iff_toNat_le, moved a inA, moved b inB]
  rcases mapped.region inA with ⟨mainA, lowA⟩ | ⟨routineA, lowA, _⟩ <;>
    rcases mapped.region inB with ⟨mainB, lowB⟩ | ⟨routineB, lowB, _⟩ <;>
    simp only [*, if_true, Bool.false_eq_true, if_false] <;> omega

end Program

theorem Cell.map_relocateWord {program : Program} {cell : Cell} {own distance : Nat}
    (isOwn : (if program.inRoutine cell.address.toUInt16 then distance else 0) = own) :
    cell.words.map (program.relocateWord distance) = (cell.relocate own distance).words := by
  rw [words_relocate]
  refine List.map_congr_left fun word present => ?_
  obtain ⟨instruction, _, rfl⟩ := List.mem_map.mp present
  rw [Program.relocateWord, isOwn]

namespace ProgramGraph.Emitted

variable {graph : ProgramGraph} {layout : Layout} {rf top limit distance : Nat}
  {program moved : Program} {main routines main' routines' : Emission} {channel : UInt8}

section

variable (emitted : Emitted graph layout rf top program main routines)
  (laid : graph.layout top = .ok layout) (small : top < UInt16.size)

include emitted laid small

theorem toNat_address {cell : Cell} (present : cell ∈ main.cells ++ routines.cells) :
    cell.address.toUInt16.toNat = cell.address :=
  UInt16.toNat_ofNat_of_lt' (emitted.instructionsAt laid small cell present).1

theorem inRoutine_main {cell : Cell} (present : cell ∈ main.cells) :
    program.inRoutine cell.address.toUInt16 = false := by
  obtain ⟨length, lowest, placed, below⟩ := layout_eq_ok laid
  have address : cell.address ∈ main.cells.map Cell.address := List.mem_map_of_mem present
  rw [Emission.addresses_nodes emitted.emittedMain, List.mem_range'_1] at address
  refine Bool.eq_false_iff.mpr fun inside => ?_
  obtain ⟨range, inRanges, low, _⟩ := Program.inRoutine_iff.mp inside
  rw [emitted.ranges_eq] at inRanges
  rw [emitted.toNat_address laid small (List.mem_append_left _ present)] at low
  have between := (placed.stacked below).between range inRanges
  omega

theorem inRoutine_routines {cell : Cell} (present : cell ∈ routines.cells) :
    program.inRoutine cell.address.toUInt16 = true := by
  obtain ⟨_, lowest, placed, below⟩ := layout_eq_ok laid
  have address : cell.address ∈ routines.cells.map Cell.address := List.mem_map_of_mem present
  rw [Emission.addresses_routines emitted.emittedRoutines
    fun pair inPlaced => (placed.range_of_mem inPlaced).2.1, List.mem_flatMap] at address
  obtain ⟨⟨routine, range⟩, inPlaced, inRange⟩ := address
  have inRanges := (List.of_mem_zip inPlaced).2
  have order := (placed.stacked below).first_le_last range inRanges
  rw [Program.inRoutine_iff, emitted.ranges_eq,
    emitted.toNat_address laid small (List.mem_append_right _ present)]
  exact ⟨range, inRanges, (Placed.addresses_eq range order _).mp inRange⟩

end

/-- The program of the same graph in a larger memory. -/
theorem relocate (emitted : Emitted graph layout rf top program main routines)
    (emitted' : Emitted graph (layout.shift distance) rf (top + distance) moved main' routines')
    (laid : graph.layout top = .ok layout) (mapped : program.MemoryMap channel top limit)
    (small : top + distance < UInt16.size) : moved = program.relocate distance := by
  have topSmall : top < UInt16.size := Nat.lt_of_le_of_lt (Nat.le_add_right _ _) small
  have mainCells : main'.cells = main.cells.map (Cell.relocate 0 distance) :=
    Emission.relocate_nodes emitted.emittedMain (board_shift .. ▸ emitted'.emittedMain)
  have routineCells : routines'.cells = routines.cells.map (Cell.relocate distance distance) :=
    Emission.relocate_routines emitted.emittedRoutines
      (board_shift .. ▸ zip_shift .. ▸ emitted'.emittedRoutines)
  have words : (main'.cells ++ routines'.cells).flatMap Cell.words
      = ((main.cells ++ routines.cells).flatMap Cell.words).map
        (program.relocateWord distance) := by
    rw [mainCells, routineCells, List.flatMap_append, List.flatMap_append, List.map_append,
      List.flatMap_map, List.flatMap_map, List.map_flatMap, List.map_flatMap]
    congr 1
    · refine List.flatMap_congr fun cell present => (Cell.map_relocateWord ?_).symm
      rw [emitted.inRoutine_main laid topSmall present]
      rfl
    · refine List.flatMap_congr fun cell present => (Cell.map_relocateWord ?_).symm
      rw [emitted.inRoutine_routines laid topSmall present]
      rfl
  have order : ∀ a ∈ (main.cells ++ routines.cells).flatMap Cell.words,
      ∀ b ∈ (main.cells ++ routines.cells).flatMap Cell.words,
      decide (a.address ≤ b.address) = decide ((program.relocateWord distance a).address ≤
        (program.relocateWord distance b).address) := by
    intro a inA b inB
    rw [List.mem_flatMap, ← emitted.mem_words] at inA inB
    rw [decide_eq_decide, mapped.relocateWord_le_iff small inA inB]
  have sorted : moved.words = program.words.map (program.relocateWord distance) := by
    calc moved.words
      _ = ((main'.cells ++ routines'.cells).flatMap Cell.words).mergeSort
          fun a b => a.address ≤ b.address := congrArg Program.words emitted'.program
      _ = (((main.cells ++ routines.cells).flatMap Cell.words).mergeSort
          fun a b => a.address ≤ b.address).map (program.relocateWord distance) := by
        rw [words]
        exact (List.map_mergeSort order).symm
      _ = program.words.map (program.relocateWord distance) :=
        congrArg (List.map _) (congrArg Program.words emitted.program).symm
  have mainLength : moved.mainLength = program.mainLength :=
    emitted'.mainLength_eq.trans emitted.mainLength_eq.symm
  have ranges : moved.ranges = program.ranges.map (AddressRange.shift distance) := by
    rw [emitted'.ranges_eq, emitted.ranges_eq]
    rfl
  exact (Program.mk.injEq ..).mpr ⟨sorted, mainLength, ranges⟩

end ProgramGraph.Emitted

/-! ## Addresses in a program -/

/-- The addresses in a word: its own one, and those that its instruction holds. -/
def ProgramWord.addresses (word : ProgramWord) : List Nat :=
  word.address.toNat ::
    match word.instruction with
    | .channelUpdate _ _ address _ => [address.toNat]
    | .setRegister register value =>
      if Instruction.holdsAddress register then [value.toNat] else []
    | .conditionalJump _ => []
    | .jump address => [address.toNat]

namespace Program.MemoryMap

variable {program : Program} {channel : UInt8} {top limit : Nat}

theorem occupied_le (mapped : program.MemoryMap channel top limit) {address : Nat}
    (occupied : program.Occupied address) : address ≤ top := by
  have floor := mapped.stacked.floor_lt
  rcases (mapped.occupied address).mp occupied with inMain | ⟨range, inRanges, _, high⟩
  · omega
  · have between := mapped.stacked.between range inRanges
    omega

/-- A program holds no address above its memory. -/
theorem addresses_le (mapped : program.MemoryMap channel top limit)
    (hardware : limit ≤ hardwareCounters) {word : ProgramWord}
    (present : word ∈ program.words) : ∀ address ∈ word.addresses, address ≤ top := by
  have floor := mapped.stacked.floor_lt
  have own : word.address.toNat ≤ top := mapped.occupied_le ⟨word, present, rfl⟩
  refine List.forall_mem_cons.mpr ⟨own, ?_⟩
  split
  case h_1 isUpdate =>
    obtain control | ⟨slot, data, same⟩ := mapped.instruction_cases present
    · rw [isUpdate] at control
      exact control.elim
    · rw [isUpdate] at same
      cases same
      exact List.forall_mem_singleton.mpr own
  case h_2 register value isWrite =>
    split
    case isTrue holds =>
      refine List.forall_mem_singleton.mpr ?_
      obtain ⟨counter, counterLt, isAddress⟩ := Instruction.holdsAddress_iff.mp holds
      obtain ⟨k, kLt, isCount | isReturn⟩ := mapped.registers word present register value isWrite
      · -- The registers of counts lie below those of addresses.
        unfold hardwareCounters at hardware
        omega
      · rcases mapped.values word present register value isWrite k kLt isReturn with
          occupied | isEnd
        · exact mapped.occupied_le occupied
        · omega
    case isFalse => exact List.forall_mem_nil _
  case h_3 => exact List.forall_mem_nil _
  case h_4 target isJump =>
    obtain ⟨range, inRanges, isFirst⟩ := mapped.jumps word present target isJump
    have between := mapped.stacked.between range inRanges
    have order := mapped.stacked.first_le_last range inRanges
    exact List.forall_mem_singleton.mpr (by omega)

end Program.MemoryMap

/-! ## Compiled programs -/

namespace Stages

variable {options options' : CompileOptions} {element projected : Element} {group : String}
  {channels : ChannelSet} {program : Program} {rf top : Nat} {graph assigned : ProgramGraph}
  {layout : Layout}

/-- Stages that succeed make up a compilation. -/
theorem compiles (stages : Stages options element group channels program projected rf top graph
    assigned layout) :
    ∃ events, compileGroup options element group channels = .ok (program, events) := by
  obtain ⟨events, foundProgram⟩ := stages.foundProgram
  simp only [compileGroup, stages.foundTop, stages.foundOutput, stages.foundProjected,
    stages.foundGraph, stages.foundAssigned, stages.foundLayout, foundProgram, Except.mapError,
    Except.ok_bind]
  exact ⟨_, rfl⟩

/-- The last stage does not fail in a larger memory. -/
theorem emit_shift (stages : Stages options element group channels program projected rf top graph
    assigned layout) {distance : Nat} (inside : top + distance ≤ maxAddress) :
    ∃ result, assigned.emit (layout.shift distance) rf (top + distance) = .ok result := by
  obtain ⟨hardware, _⟩ := Settings.topAddress_eq_ok stages.foundTop
  exact ProgramGraph.emit_of_project stages.foundOutput stages.foundProjected stages.foundGraph
    stages.foundAssigned (ProgramGraph.layout_shift stages.foundLayout distance) hardware inside

/-- Higher limits move the subroutines up. -/
theorem relocate (stages : Stages options element group channels program projected rf top graph
    assigned layout) {distance : Nat}
    (foundTop : options'.settings.topAddress = .ok (top + distance))
    (counters : options.settings.counterCount ≤ options'.settings.counterCount) :
    Stages options' element group channels (program.relocate distance) projected rf
      (top + distance) graph assigned (layout.shift distance) := by
  obtain ⟨_, inside⟩ := Settings.topAddress_eq_ok foundTop
  obtain ⟨⟨moved, events⟩, foundMoved⟩ := stages.emit_shift inside
  obtain ⟨_, foundProgram⟩ := stages.foundProgram
  obtain ⟨main, routines, emitted⟩ := ProgramGraph.emit_eq_ok foundProgram
  obtain ⟨main', routines', emitted'⟩ := ProgramGraph.emit_eq_ok foundMoved
  have same : moved = program.relocate distance :=
    emitted.relocate emitted' stages.foundLayout stages.memoryMap
      (Nat.lt_of_le_of_lt inside (by decide))
  exact {
    foundTop
    foundOutput := stages.foundOutput
    foundProjected := stages.foundProjected
    foundGraph := stages.foundGraph
    foundAssigned := ProgramGraph.assignCounters_of_le stages.foundAssigned
      (UInt8.le_iff_toNat_le.mp counters) group
    foundLayout := ProgramGraph.layout_shift stages.foundLayout distance
    foundProgram := ⟨events, same ▸ foundMoved⟩ }

end Stages

theorem Settings.topAddress_eq {settings : Settings} {top : Nat}
    (ok : settings.topAddress = .ok top) : top = 2 ^ settings.addressBits.toNat - 1 := by
  simp only [topAddress, Except.bind_eq_ok_iff, Except.pure_eq_ok, Except.ok.injEq] at ok
  obtain ⟨_, _, rfl⟩ := ok
  rw [Nat.shiftLeft_eq, Nat.one_mul]

/-- The limits of the settings decide whether a program fits, and never what it does. With valid
limits that are at least as high, the compilation succeeds again, and its program is the same one
with the subroutines moved up by the difference of the memory sizes. None of the addresses in it
wraps around. -/
theorem compileGroup_relocates {options options' : CompileOptions} {element : Element}
    {group : String} {channels : ChannelSet} {program : Program} {events : List LogEvent}
    (ok : compileGroup options element group channels = .ok (program, events))
    (valid : options'.settings.checkLimits = .ok ())
    (counters : options.settings.counterCount ≤ options'.settings.counterCount)
    (bits : options.settings.addressBits ≤ options'.settings.addressBits) :
    ∃ distance events',
      2 ^ options.settings.addressBits.toNat + distance
        = 2 ^ options'.settings.addressBits.toNat ∧
      compileGroup options' element group channels
        = .ok (program.relocate distance, events') ∧
      ∀ word ∈ program.words, ∀ address ∈ word.addresses,
        address + distance < 2 ^ options'.settings.addressBits.toNat := by
  obtain ⟨projected, rf, top, graph, assigned, layout, stages⟩ := compileGroup_eq_ok ok
  have smaller : 2 ^ options.settings.addressBits.toNat
      ≤ 2 ^ options'.settings.addressBits.toNat :=
    Nat.pow_le_pow_right (by decide) (UInt32.le_iff_toNat_le.mp bits)
  obtain ⟨distance, size⟩ := Nat.exists_eq_add_of_le smaller
  have positive := Nat.two_pow_pos options.settings.addressBits.toNat
  have isTop := Settings.topAddress_eq stages.foundTop
  have foundTop : options'.settings.topAddress = .ok (top + distance) := by
    rw [Settings.topAddress, valid, Except.ok_bind, Nat.shiftLeft_eq, Nat.one_mul]
    exact congrArg Except.ok (by omega)
  obtain ⟨events', compiled⟩ := (stages.relocate foundTop counters).compiles
  refine ⟨distance, events', size.symm, compiled, fun word present address held => ?_⟩
  obtain ⟨hardware, _⟩ := Settings.topAddress_eq_ok stages.foundTop
  have le := stages.memoryMap.addresses_le hardware present address held
  omega

/-- From 5 to 14 address bits. -/
theorem compileGroup_relocates_sharedSecond :
    ∃ program events events',
      compileGroup ⟨{ Settings.default with addressBits := 5 }, false⟩ sharedSecond "board"
        (.ofList [.rf 0, .digital 0]) = .ok (program, events) ∧
      program.ranges = [⟨29, 30⟩] ∧
      compileGroup ⟨{ Settings.default with addressBits := 14 }, false⟩ sharedSecond "board"
        (.ofList [.rf 0, .digital 0]) = .ok (program.relocate 16352, events') := by
  have places : (compileGroup ⟨{ Settings.default with addressBits := 5 }, false⟩ sharedSecond
      "board" (.ofList [.rf 0, .digital 0])).toOption.map (fun result => result.1.ranges)
        = some [⟨29, 30⟩] := by
    decide +kernel
  cases ok : compileGroup ⟨{ Settings.default with addressBits := 5 }, false⟩ sharedSecond
      "board" (.ofList [.rf 0, .digital 0]) with
  | error error =>
    rw [ok] at places
    cases places
  | ok result =>
    obtain ⟨program, events⟩ := result
    rw [ok] at places
    obtain ⟨distance, events', size, compiled, _⟩ := @compileGroup_relocates _
      ⟨{ Settings.default with addressBits := 14 }, false⟩ _ _ _ _ _ ok rfl (by decide) (by decide)
    obtain rfl : distance = 16352 := Nat.add_left_cancel size
    exact ⟨program, events, events', rfl, Option.some.inj places, compiled⟩

end PulseSequencer

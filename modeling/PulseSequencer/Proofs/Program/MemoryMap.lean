import PulseSequencer.Proofs.Program.Playback

/-!
# Memory maps

What stands at each address of a compiled program. A cell is sound if it holds the records of one
output word or a single control instruction that stays inside of the program: it uses counters that
the compiler may use, jumps to the start of a subroutine and returns to an address of the program or
to its end.

Results:
1. `Emission.sound_nodes`, `Emission.sound_routines`: all emitted cells are sound.
2. `ProgramGraph.Emitted.memoryMap`: a program of sound cells is mapped to memory without a gap.
3. `compileGroup_memoryMap`: the map of every program that the compiler returns.
-/

namespace PulseSequencer

/-! ## Maps -/

/-- Ranges directly below one another: the first one ends below `top`, and the last one starts above
`floor`. -/
def AddressRange.Stacked (floor : Nat) : Nat → List AddressRange → Prop
  | top, [] => floor < top
  | top, range :: rest =>
    range.first ≤ range.last ∧ range.last + 1 = top ∧ Stacked floor range.first rest

/-- The instructions that need no memory slots. -/
def Instruction.IsControl : Instruction → Prop
  | .channelUpdate .. => False
  | .setRegister .. => True
  | .conditionalJump _ => True
  | .jump _ => True

namespace Program

/-- The address of some word. -/
def Occupied (program : Program) (address : Nat) : Prop :=
  ∃ word ∈ program.words, word.address.toNat = address

/-- The instructions of all words with an address, in their order. -/
def stored (program : Program) (address : UInt16) : List Instruction :=
  (program.words.filter fun word => word.address = address).map ProgramWord.instruction

/-- The memory of a program for the RF output `channel`, below the address `top` and with counters
below `limit`. -/
structure MemoryMap (program : Program) (channel : UInt8) (top limit : Nat) : Prop where
  stacked : AddressRange.Stacked program.mainLength top program.ranges
  occupied : ∀ address, program.Occupied address ↔ address < program.mainLength ∨
    ∃ range ∈ program.ranges, range.first ≤ address ∧ address ≤ range.last
  content : ∀ word ∈ program.words,
    (∃ instruction, instruction.IsControl ∧ program.stored word.address = [instruction]) ∨
    ∃ data : MemorySlot → UInt32, program.stored word.address =
      [.channelUpdate channel .ticksLow word.address (data .ticksLow),
       .channelUpdate channel .ticksHigh word.address (data .ticksHigh),
       .channelUpdate channel .frequency word.address (data .frequency),
       .channelUpdate channel .phaseAmplitude word.address (data .phaseAmplitude)]
  jumps : ∀ word ∈ program.words, ∀ target, word.instruction = .jump target →
    ∃ range ∈ program.ranges, target.toNat = range.first
  closings : ∀ range ∈ program.ranges, ∃ word ∈ program.words, word.address.toNat = range.last ∧
    ∃ counter, word.instruction = .conditionalJump counter
  registers : ∀ word ∈ program.words, ∀ register value,
    word.instruction = .setRegister register value →
    ∃ k < limit, register.toNat = k ∨ register.toNat = 0x10 + k ∨ register.toNat = 0x20 + k
  values : ∀ word ∈ program.words, ∀ register value,
    word.instruction = .setRegister register value →
    ∀ k < limit, register.toNat = 0x10 + k ∨ register.toNat = 0x20 + k →
    program.Occupied value.toNat ∨ value.toNat = program.mainLength

end Program

/-! ## Sound cells -/

namespace Emission

/-- Control instructions with counters below `limit` that jump to the targets of a board and return
to the addresses in `valid`. -/
inductive Control (board : Board) (limit : Nat) (valid : Nat → Prop) : Instruction → Prop
  | count {counter : UInt8} (below : counter.toNat < limit) (times : UInt32) :
      Control board limit valid (.setRegister (Instruction.countRegister counter) times)
  | exit {counter : UInt8} {address : Nat} (below : counter.toNat < limit)
      (reached : valid address) : Control board limit valid
        (.setRegister (Instruction.exitRegister counter) address.toUInt16.toUInt32)
  | start {counter : UInt8} {address : Nat} (below : counter.toNat < limit)
      (reached : valid address) : Control board limit valid
        (.setRegister (Instruction.startRegister counter) address.toUInt16.toUInt32)
  | close (counter : UInt8) : Control board limit valid (.conditionalJump counter)
  | jump {target : Target} (present : target ∈ board.targets) :
      Control board limit valid (.jump target.address.toUInt16)

/-- Cells of one output word or one control instruction. -/
inductive Sound (board : Board) (limit : Nat) (valid : Nat → Prop) : Cell → Prop
  | word (word : OutputWord) (address : Nat) : Sound board limit valid (wordCell board word address)
  | control {instruction : Instruction} (address : Nat)
      (control : Control board limit valid instruction) :
      Sound board limit valid ⟨address, [instruction]⟩

variable {board : Board} {limit : Nat} {valid : Nat → Prop} {counterOf : Nat → Option Nat}

theorem Control.isControl {instruction : Instruction}
    (control : Control board limit valid instruction) : instruction.IsControl := by
  cases control <;> trivial

theorem Sound.nonempty {cell : Cell} (sound : Sound board limit valid cell) :
    cell.instructions ≠ [] := by
  cases sound <;> exact List.cons_ne_nil _ _

theorem sound_row {instructions : List Instruction} (start : Nat)
    (control : ∀ instruction ∈ instructions, Control board limit valid instruction) :
    ∀ cell ∈ Cell.row start instructions, Sound board limit valid cell := by
  intro cell present
  obtain ⟨⟨instruction, address⟩, indexed, rfl⟩ := List.mem_map.mp present
  exact .control address (control instruction (List.fst_mem_of_mem_zipIdx indexed))

theorem sound_block {start : Nat} {timestamps : List Timestamp} {emission : Emission}
    (ok : block board start timestamps = .ok emission) :
    ∀ cell ∈ emission.cells, Sound board limit valid cell := by
  induction timestamps generalizing start emission with
  | nil => simp [block_nil_eq_ok ok]
  | cons t rest ih =>
    obtain ⟨word, others, _, found, cells⟩ := block_cons_eq_ok ok
    rw [cells]
    exact List.forall_mem_cons.mpr ⟨.word word start, ih found⟩

/-- A call returns to the address after it. -/
theorem sound_call {start index : Nat} {emission : Emission}
    (ok : call board start index = .ok emission)
    (targets : ∀ target ∈ board.targets, target.counter.toUInt8.toNat < limit)
    (reached : valid (start + 3)) : ∀ cell ∈ emission.cells, Sound board limit valid cell := by
  obtain ⟨target, instructions, found, control, cells⟩ := call_eq_ok ok
  obtain ⟨_, _, _, rfl⟩ := Instruction.callControl_eq_ok_iff.mp control
  have present := List.mem_of_getElem? found
  have below := targets target present
  rw [cells]
  refine sound_row start ?_
  simp only [List.forall_mem_cons, List.not_mem_nil, false_imp_iff, implies_true, and_true]
  exact ⟨.count below 0, .exit below reached, .jump present⟩

mutual

theorem sound_node (targets : ∀ target ∈ board.targets, target.counter.toUInt8.toNat < limit)
    {start inner : Nat} {n : Node} {emission : Emission}
    (ok : node board start n = .ok emission) (fits : n.Fits counterOf inner) (le : inner ≤ limit)
    (hardware : limit ≤ hardwareCounters)
    (reached : ∀ address, start ≤ address → address ≤ start + n.length → valid address) :
    ∀ cell ∈ emission.cells, Sound board limit valid cell := by
  match n, ok, fits, reached with
  | .block timestamps, ok, _, _ => exact sound_block ok
  | .loop times counter body, ok, fits, reached =>
    obtain ⟨control, emitted, foundControl, foundBody, cells⟩ := node_loop_eq_ok ok
    obtain ⟨_, _, _, rfl⟩ := Instruction.loopControl_eq_ok_iff.mp foundControl
    have counterLt : counter < limit := fits.1.trans_le le
    have below : counter.toUInt8.toNat < limit := by
      rwa [Sequencer.toNat_toUInt8 (counterLt.trans_le hardware)]
    simp only [Node.length, Node.loopOverhead] at reached
    rw [cells]
    simp only [List.mem_append]
    rintro cell ((inPreamble | inBody) | inClosing)
    · refine sound_row start ?_ cell inPreamble
      simp only [List.forall_mem_cons, List.not_mem_nil, false_imp_iff, implies_true, and_true]
      exact ⟨.count below times, .exit below (reached _ (by omega) (by omega)),
        .start below (reached _ (by omega) (by omega))⟩
    · exact sound_nodes targets foundBody fits.2 counterLt.le hardware
        (fun address low high => reached address (by omega) (by omega)) cell inBody
    · refine sound_row _ ?_ cell inClosing
      simp only [List.mem_singleton, forall_eq]
      exact .close _
  | .call index, ok, _, reached =>
    exact sound_call ok targets (reached _ (by omega) (le_refl _))

/-- Emitted nodes return to addresses between their start and their end. -/
theorem sound_nodes (targets : ∀ target ∈ board.targets, target.counter.toUInt8.toNat < limit)
    {start inner : Nat} {ns : List Node} {emission : Emission}
    (ok : nodes board start ns = .ok emission) (fits : Node.FitsAll counterOf inner ns)
    (le : inner ≤ limit) (hardware : limit ≤ hardwareCounters)
    (reached : ∀ address, start ≤ address → address ≤ start + Node.lengthAll ns →
      valid address) :
    ∀ cell ∈ emission.cells, Sound board limit valid cell := by
  match ns, ok, fits, reached with
  | [], ok, _, _ =>
    cases ok
    simp [empty]
  | first :: rest, ok, fits, reached =>
    obtain ⟨head, others, foundHead, foundRest, cells⟩ := nodes_cons_eq_ok ok
    rw [Node.lengthAll] at reached
    rw [cells]
    simp only [List.mem_append]
    rintro cell (inHead | inRest)
    · exact sound_node targets foundHead fits.1 le hardware
        (fun address low high => reached address low (by omega)) cell inHead
    · exact sound_nodes targets foundRest fits.2 le hardware
        (fun address low high => reached address (by omega) (by omega)) cell inRest

end

/-- Emitted subroutines return to addresses of their ranges. -/
theorem sound_routines (targets : ∀ target ∈ board.targets, target.counter.toUInt8.toNat < limit)
    {placed : List (Routine × AddressRange)} {emission : Emission}
    (ok : routines board placed = .ok emission) (hardware : limit ≤ hardwareCounters)
    (fits : ∀ pair ∈ placed, ∃ inner ≤ limit, Node.FitsAll counterOf inner pair.1.body)
    (reached : ∀ pair ∈ placed, ∀ address, pair.2.first ≤ address →
      address ≤ pair.2.first + Node.lengthAll pair.1.body → valid address) :
    ∀ cell ∈ emission.cells, Sound board limit valid cell := by
  induction placed generalizing emission with
  | nil =>
    cases ok
    simp [empty]
  | cons pair rest ih =>
    obtain ⟨head, others, foundHead, foundRest, cells⟩ := routines_cons_eq_ok ok
    obtain ⟨body, foundBody, _, headCells⟩ := routine_eq_ok foundHead
    obtain ⟨⟨inner, le, fitsFirst⟩, fitsRest⟩ := List.forall_mem_cons.mp fits
    obtain ⟨reachedFirst, reachedRest⟩ := List.forall_mem_cons.mp reached
    rw [cells, headCells]
    simp only [List.mem_append]
    rintro cell ((inBody | inClosing) | inRest)
    · exact sound_nodes targets foundBody fitsFirst le hardware reachedFirst cell inBody
    · refine sound_row _ ?_ cell inClosing
      simp only [List.mem_singleton, forall_eq]
      exact .close _
    · exact ih foundRest fitsRest reachedRest cell inRest

end Emission

/-! ## Emitted programs -/

theorem AddressRange.Stacked.first_le_last {floor top : Nat} {ranges : List AddressRange}
    (stacked : Stacked floor top ranges) : ∀ range ∈ ranges, range.first ≤ range.last := by
  induction ranges generalizing top with
  | nil => simp
  | cons range rest ih => exact List.forall_mem_cons.mpr ⟨stacked.1, ih stacked.2.2⟩

theorem Placed.stacked {floor top lowest : Nat} {routines : List Routine}
    {ranges : List AddressRange} (placed : Placed top routines ranges lowest)
    (below : floor < lowest) : AddressRange.Stacked floor top ranges := by
  induction placed with
  | nil top => exact below
  | @cons first lowest routine rest others placed ih =>
    have positive := routine.length_pos
    exact ⟨by simp only; omega, by simp only; omega, ih below⟩

namespace ProgramGraph

theorem mem_reserved {graph : ProgramGraph} {layout : Layout} {top : Nat}
    (laid : graph.layout top = .ok layout) {address : Nat} :
    address ∈ Emission.reserved layout ↔ address < layout.mainLength ∨
      ∃ range ∈ layout.ranges, range.first ≤ address ∧ address ≤ range.last := by
  obtain ⟨_, lowest, placed, below⟩ := layout_eq_ok laid
  rw [Emission.reserved, List.mem_append, List.mem_range, List.mem_flatMap]
  refine or_congr_right (exists_congr fun range => and_congr_right fun present => ?_)
  exact Placed.addresses_eq range ((placed.stacked below).first_le_last range present) address

/-- What a call can jump to. -/
theorem exists_of_mem_targets {graph : ProgramGraph} {layout : Layout} {rf : Nat}
    {target : Emission.Target} (present : target ∈ (graph.board layout rf).targets) :
    ∃ routine range, (routine, range) ∈ graph.routines.zip layout.ranges ∧
      target = ⟨range.first, routine.counter⟩ := by
  obtain ⟨⟨routine, range⟩, inPlaced, rfl⟩ := List.mem_map.mp present
  exact ⟨routine, range, inPlaced, rfl⟩

theorem Assigned.of_mem {graph assigned : ProgramGraph} {limit : Nat}
    (counters : Assigned graph assigned limit) {routine : Routine}
    (present : routine ∈ assigned.routines) :
    routine.counter < limit ∧
      Node.FitsAll (counterOf assigned.routines) routine.counter routine.body := by
  obtain ⟨index, found⟩ := List.mem_iff_getElem?.mp present
  obtain ⟨_, _, assignedFrom⟩ := counters.routine index routine found
  exact ⟨assignedFrom.below, assignedFrom.fits⟩

/-- The addresses that loops and calls return to: those of the program, and the end of its main
part. -/
def Reached (layout : Layout) (address : Nat) : Prop :=
  address ∈ Emission.reserved layout ∨ address = layout.mainLength

namespace Emitted

variable {graph assigned : ProgramGraph} {layout : Layout} {rf top limit : Nat} {program : Program}
  {main routines : Emission}

/-- All cells of an emitted program are sound. -/
theorem sound (emitted : Emitted assigned layout rf top program main routines)
    (laid : assigned.layout top = .ok layout) (counters : Assigned graph assigned limit)
    (hardware : limit ≤ hardwareCounters) : ∀ cell ∈ main.cells ++ routines.cells,
      Emission.Sound (assigned.board layout rf) limit (Reached layout) cell := by
  obtain ⟨length, lowest, placed, below⟩ := layout_eq_ok laid
  have targets : ∀ target ∈ (assigned.board layout rf).targets,
      target.counter.toUInt8.toNat < limit := by
    intro target present
    obtain ⟨routine, range, inPlaced, rfl⟩ := exists_of_mem_targets present
    have counterLt := (counters.of_mem (List.of_mem_zip inPlaced).1).1
    rwa [Sequencer.toNat_toUInt8 (counterLt.trans_le hardware)]
  simp only [List.mem_append]
  rintro cell (inMain | inRoutines)
  · refine Emission.sound_nodes targets emitted.emittedMain counters.fits le_rfl hardware ?_ cell
      inMain
    intro address _ high
    rw [Reached, mem_reserved laid]
    omega
  · have fits : ∀ pair ∈ assigned.routines.zip layout.ranges, ∃ inner ≤ limit,
        Node.FitsAll (counterOf assigned.routines) inner pair.1.body := by
      rintro ⟨routine, range⟩ inPlaced
      obtain ⟨counterLt, fits⟩ := counters.of_mem (List.of_mem_zip inPlaced).1
      exact ⟨routine.counter, counterLt.le, fits⟩
    refine Emission.sound_routines targets emitted.emittedRoutines hardware fits ?_ cell inRoutines
    rintro ⟨routine, range⟩ inPlaced address low high
    obtain ⟨_, last, _⟩ := placed.range_of_mem inPlaced
    rw [← last] at high
    exact .inl ((mem_reserved laid).mpr (.inr ⟨range, (List.of_mem_zip inPlaced).2, low, high⟩))

section

variable (emitted : Emitted assigned layout rf top program main routines)
  (laid : assigned.layout top = .ok layout) (small : top < UInt16.size)
  (sound : ∀ cell ∈ main.cells ++ routines.cells,
    Emission.Sound (assigned.board layout rf) limit (Reached layout) cell)

include emitted

theorem mainLength_eq : program.mainLength = layout.mainLength := by
  rw [emitted.program]
  rfl

theorem ranges_eq : program.ranges = layout.ranges := by
  rw [emitted.program]
  rfl

theorem mem_words {word : ProgramWord} :
    word ∈ program.words ↔ ∃ cell ∈ main.cells ++ routines.cells, word ∈ cell.words := by
  rw [emitted.program, Program.ofWords, List.mem_mergeSort, List.mem_flatMap]

theorem stored_eq_instructionsAt (address : UInt16) :
    program.stored address = program.instructionsAt address := by
  rw [emitted.program, Program.instructionsAt_ofWords, Program.stored, Program.ofWords,
    Program.filter_mergeSort]

include sound in
/-- A word that is no channel update is a control instruction of a sound cell. -/
theorem control_of_mem {word : ProgramWord} (present : word ∈ program.words)
    (isControl : word.instruction.IsControl) :
    Emission.Control (assigned.board layout rf) limit (Reached layout) word.instruction := by
  obtain ⟨cell, inCells, inCell⟩ := emitted.mem_words.mp present
  obtain ⟨instruction, inInstructions, rfl⟩ := List.mem_map.mp inCell
  cases sound cell inCells with
  | word output address =>
    obtain ⟨slot, _, rfl⟩ := List.mem_map.mp inInstructions
    exact isControl.elim
  | control address control =>
    rwa [List.mem_singleton.mp inInstructions]

include laid small

theorem lt_of_mem_reserved {address : Nat} (present : address ∈ Emission.reserved layout) :
    address < UInt16.size := by
  rw [← addresses_eq_reserved laid emitted.emittedMain emitted.emittedRoutines] at present
  obtain ⟨cell, inCells, rfl⟩ := List.mem_map.mp present
  exact (emitted.instructionsAt laid small cell inCells).1

/-- The last address of a subroutine holds the jump that closes it. -/
theorem closing_of_mem {range : AddressRange} (present : range ∈ layout.ranges) :
    ∃ word ∈ program.words, word.address.toNat = range.last ∧
      ∃ counter, word.instruction = .conditionalJump counter := by
  obtain ⟨_, lowest, placed, _⟩ := layout_eq_ok laid
  obtain ⟨index, found⟩ := List.mem_iff_getElem?.mp present
  have inside := (List.getElem?_eq_some_iff.mp found).1
  rw [placed.length_eq] at inside
  have inPlaced : (assigned.routines[index], range) ∈ assigned.routines.zip layout.ranges :=
    List.mem_of_getElem? (List.getElem?_zip_eq_some.mpr ⟨List.getElem?_eq_getElem inside, found⟩)
  obtain ⟨part, foundPart, subset⟩ := Emission.routine_of_mem emitted.emittedRoutines inPlaced
  obtain ⟨body, _, _, partCells⟩ := Emission.routine_eq_ok foundPart
  have inCells : ⟨range.last, [.conditionalJump assigned.routines[index].counter.toUInt8]⟩ ∈
      main.cells ++ routines.cells := by
    refine List.mem_append_right _ (subset ?_)
    rw [partCells]
    exact List.mem_append_right _ (by simp [Cell.row])
  refine ⟨_, emitted.mem_words.mpr ⟨_, inCells, List.mem_singleton.mpr rfl⟩, ?_, _, rfl⟩
  exact UInt16.toNat_ofNat_of_lt' (emitted.instructionsAt laid small _ inCells).1

include sound

/-- An address is occupied exactly if the layout sets it aside. -/
theorem occupied_iff {address : Nat} :
    program.Occupied address ↔ address ∈ Emission.reserved layout := by
  have cells := emitted.instructionsAt laid small
  rw [← addresses_eq_reserved laid emitted.emittedMain emitted.emittedRoutines, List.mem_map]
  constructor
  · rintro ⟨word, present, rfl⟩
    obtain ⟨cell, inCells, inCell⟩ := emitted.mem_words.mp present
    obtain ⟨instruction, _, rfl⟩ := List.mem_map.mp inCell
    exact ⟨cell, inCells, (UInt16.toNat_ofNat_of_lt' (cells cell inCells).1).symm⟩
  · rintro ⟨cell, inCells, rfl⟩
    obtain ⟨instruction, rest, instructions⟩ :=
      List.exists_cons_of_ne_nil (sound cell inCells).nonempty
    refine ⟨⟨cell.address.toUInt16, instruction⟩, emitted.mem_words.mpr ⟨cell, inCells, ?_⟩,
      UInt16.toNat_ofNat_of_lt' (cells cell inCells).1⟩
    exact List.mem_map.mpr ⟨instruction, by rw [instructions]; exact List.mem_cons_self, rfl⟩

/-- What a register holds to return to an address. -/
theorem occupied_of_reached {address : Nat} (reached : Reached layout address) :
    program.Occupied address.toUInt16.toUInt32.toNat ∨
      address.toUInt16.toUInt32.toNat = program.mainLength := by
  have fits : address < UInt16.size := by
    rcases reached with reserved | rfl
    · exact emitted.lt_of_mem_reserved laid small reserved
    · obtain ⟨_, lowest, placed, below⟩ := layout_eq_ok laid
      have lowestLe := placed.lowest_le
      omega
  rw [UInt16.toNat_toUInt32, UInt16.toNat_ofNat_of_lt' fits, emitted.mainLength_eq,
    emitted.occupied_iff laid small sound]
  exact reached

/-- A jump leads to the first address of a subroutine. -/
theorem range_of_jump {word : ProgramWord} {target : UInt16} (present : word ∈ program.words)
    (isJump : word.instruction = .jump target) :
    ∃ range ∈ layout.ranges, target.toNat = range.first := by
  obtain ⟨_, lowest, placed, below⟩ := layout_eq_ok laid
  have control := emitted.control_of_mem sound present (by rw [isJump]; trivial)
  rw [isJump] at control
  cases control with
  | jump inTargets =>
    obtain ⟨routine, range, inPlaced, rfl⟩ := exists_of_mem_targets inTargets
    have inRanges := (List.of_mem_zip inPlaced).2
    have order := (placed.stacked below).first_le_last range inRanges
    have reserved := (mem_reserved laid).mpr (.inr ⟨range, inRanges, le_rfl, order⟩)
    have fits := emitted.lt_of_mem_reserved laid small reserved
    exact ⟨range, inRanges, UInt16.toNat_ofNat_of_lt' fits⟩

/-- A write sets one of the registers of a counter, and those that are returned to only to an
address of the program or its end. -/
theorem register_of_write (hardware : limit ≤ hardwareCounters) {word : ProgramWord}
    {register : UInt16} {value : UInt32} (present : word ∈ program.words)
    (isWrite : word.instruction = .setRegister register value) :
    ∃ k < limit, register.toNat = k ∨
      (register.toNat = 0x10 + k ∨ register.toNat = 0x20 + k) ∧
      (program.Occupied value.toNat ∨ value.toNat = program.mainLength) := by
  have control := emitted.control_of_mem sound present (by rw [isWrite]; trivial)
  rw [isWrite] at control
  cases control with
  | count below times =>
    have numbers := Sequencer.toNat_controlRegisters (below.trans_le hardware)
    exact ⟨_, below, .inl numbers.1⟩
  | exit below reached =>
    have numbers := Sequencer.toNat_controlRegisters (below.trans_le hardware)
    exact ⟨_, below, .inr ⟨.inl numbers.2.1, emitted.occupied_of_reached laid small sound reached⟩⟩
  | start below reached =>
    have numbers := Sequencer.toNat_controlRegisters (below.trans_le hardware)
    exact ⟨_, below, .inr ⟨.inr numbers.2.2, emitted.occupied_of_reached laid small sound reached⟩⟩

end

theorem memoryMap (emitted : Emitted assigned layout rf top program main routines)
    (laid : assigned.layout top = .ok layout) (counters : Assigned graph assigned limit)
    (hardware : limit ≤ hardwareCounters) (topLe : top ≤ maxAddress) :
    program.MemoryMap rf.toUInt8 top limit := by
  have small : top < UInt16.size := Nat.lt_of_le_of_lt topLe (by decide)
  have sound := emitted.sound laid counters hardware
  obtain ⟨_, lowest, placed, below⟩ := layout_eq_ok laid
  constructor
  · rw [emitted.mainLength_eq, emitted.ranges_eq]
    exact placed.stacked below
  · intro address
    rw [emitted.occupied_iff laid small sound, mem_reserved laid, emitted.mainLength_eq,
      emitted.ranges_eq]
  · intro word present
    obtain ⟨cell, inCells, inCell⟩ := emitted.mem_words.mp present
    obtain ⟨instruction, _, rfl⟩ := List.mem_map.mp inCell
    dsimp only
    rw [emitted.stored_eq_instructionsAt, (emitted.instructionsAt laid small cell inCells).2.2]
    cases sound cell inCells with
    | word output address => exact .inr ⟨output.data, rfl⟩
    | control address control => exact .inl ⟨_, control.isControl, rfl⟩
  · intro word present target isJump
    rw [emitted.ranges_eq]
    exact emitted.range_of_jump laid small sound present isJump
  · intro range present
    rw [emitted.ranges_eq] at present
    exact emitted.closing_of_mem laid small present
  · intro word present register value isWrite
    obtain ⟨k, kLt, isCount | ⟨isReturn, _⟩⟩ :=
      emitted.register_of_write laid small sound hardware present isWrite
    · exact ⟨k, kLt, .inl isCount⟩
    · exact ⟨k, kLt, .inr isReturn⟩
  · intro word present register value isWrite k kLt isReturn
    obtain ⟨counter, counterLt, isCount | ⟨_, reached⟩⟩ :=
      emitted.register_of_write laid small sound hardware present isWrite
    · -- The registers of counts lie below those of return addresses.
      unfold hardwareCounters at hardware
      omega
    · exact reached

end Emitted

end ProgramGraph

/-- The instruction of a word controls the sequencer or updates the channel at its own address. -/
theorem Program.MemoryMap.instruction_cases {program : Program} {channel : UInt8} {top limit : Nat}
    (mapped : program.MemoryMap channel top limit) {word : ProgramWord}
    (present : word ∈ program.words) :
    word.instruction.IsControl ∨
      ∃ slot data, word.instruction = .channelUpdate channel slot word.address data := by
  have stored : word.instruction ∈ program.stored word.address :=
    List.mem_map_of_mem (List.mem_filter.mpr ⟨present, decide_eq_true rfl⟩)
  obtain ⟨instruction, control, single⟩ | ⟨data, updates⟩ := mapped.content word present
  · rw [single, List.mem_singleton] at stored
    exact .inl (stored ▸ control)
  · rw [updates] at stored
    simp only [List.mem_cons, List.not_mem_nil, or_false] at stored
    obtain isUpdate | isUpdate | isUpdate | isUpdate := stored <;> exact .inr ⟨_, _, isUpdate⟩

/-! ## Compiled programs -/

theorem Stages.counters {options : CompileOptions} {element : Element} {group : String}
    {channels : ChannelSet} {program : Program} {projected : Element} {rf top : Nat}
    {graph assigned : ProgramGraph} {layout : Layout}
    (stages : Stages options element group channels program projected rf top graph assigned
      layout) :
    ProgramGraph.Assigned graph assigned options.settings.counterCount.toNat := by
  have graphOf := ProgramGraph.ofElement_spec stages.foundGraph
  obtain tooMany | ⟨assigned', foundAssigned, counters⟩ :=
    graphOf.assignCounters group options.settings.counterCount.toNat
  · rw [stages.foundAssigned] at tooMany
    cases tooMany
  · obtain rfl : assigned = assigned' :=
      Except.ok.inj (stages.foundAssigned.symm.trans foundAssigned)
    exact counters

theorem Stages.memoryMap {options : CompileOptions} {element : Element} {group : String}
    {channels : ChannelSet} {program : Program} {projected : Element} {rf top : Nat}
    {graph assigned : ProgramGraph} {layout : Layout}
    (stages : Stages options element group channels program projected rf top graph assigned
      layout) :
    program.MemoryMap rf.toUInt8 top options.settings.counterCount.toNat := by
  obtain ⟨_, foundProgram⟩ := stages.foundProgram
  obtain ⟨main, routines, emitted⟩ := ProgramGraph.emit_eq_ok foundProgram
  obtain ⟨hardware, topLe⟩ := Settings.topAddress_eq_ok stages.foundTop
  exact emitted.memoryMap stages.foundLayout stages.counters hardware topLe

/-- The memory of a compiled program is filled without a gap: the main program from address 0, and
the subroutines from the top down. Every address holds one output word or one control instruction,
and no jump or return leads out of the program. -/
theorem compileGroup_memoryMap {options : CompileOptions} {element : Element} {group : String}
    {channels : ChannelSet} {program : Program} {events : List LogEvent}
    (ok : compileGroup options element group channels = .ok (program, events)) :
    ∃ top rf, options.settings.topAddress = .ok top ∧ rfOutput group channels = .ok rf ∧
      program.MemoryMap rf.toUInt8 top options.settings.counterCount.toNat := by
  obtain ⟨_, rf, top, _, _, _, stages⟩ := compileGroup_eq_ok ok
  exact ⟨top, rf, stages.foundTop, stages.foundOutput, stages.memoryMap⟩

theorem compileGroup_memoryMap_sharedSecond :
    ∃ program events,
      compileGroup ⟨{ Settings.default with addressBits := 5 }, false⟩ sharedSecond "board"
        (.ofList [.rf 0, .digital 0]) = .ok (program, events) ∧
      program.mainLength = 11 ∧ program.ranges = [⟨29, 30⟩] ∧ ∃ top rf,
        ({ Settings.default with addressBits := 5 } : Settings).topAddress = .ok top ∧
        rfOutput "board" (.ofList [.rf 0, .digital 0]) = .ok rf ∧
        program.MemoryMap rf.toUInt8 top 8 := by
  have places : (compileGroup ⟨{ Settings.default with addressBits := 5 }, false⟩ sharedSecond
      "board" (.ofList [.rf 0, .digital 0])).toOption.map (fun result =>
        (result.1.mainLength, result.1.ranges)) = some (11, [⟨29, 30⟩]) := by
    decide +kernel
  have isOk : (compileGroup ⟨{ Settings.default with addressBits := 5 }, false⟩ sharedSecond
      "board" (.ofList [.rf 0, .digital 0])).isOk = true := by
    decide +kernel
  obtain ⟨⟨program, events⟩, ok⟩ := Except.exists_ok_of_isOk isOk
  rw [ok] at places
  obtain ⟨mainLength, ranges⟩ := Prod.mk.inj (Option.some.inj places)
  exact ⟨program, events, ok, mainLength, ranges, compileGroup_memoryMap ok⟩

end PulseSequencer

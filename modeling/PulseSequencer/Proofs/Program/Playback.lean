import PulseSequencer.Compiler
import PulseSequencer.Proofs.Program.Unrolling
import PulseSequencer.Proofs.Sequencer

/-!
# Playback

What the sequencer does with emitted nodes. `Plays` is the contract of a stretch of code: entered at
its start in any state, it plays its words, arrives at the address after it, and leaves alone the
registers of the counters from some counter on. Loops and calls can be put together because their
bodies use lower counters only.

Results:
1. `Plays.append`, `Plays.word`, `Plays.loop`, `Plays.call`: the contract of each kind of code.
2. `plays_nodes`: emitted nodes play the words that they unroll to.
3. `Stages.completes`, `compileGroup_plays`: the program of a channel group plays the unrolled
   projection of the element and then reaches the end of the main program for the first time.
-/

namespace PulseSequencer

/-- The data that an output word sends to the memory slots. -/
def OutputWord.records (word : OutputWord) : List (MemorySlot × UInt32) :=
  MemorySlot.all.map fun slot => (slot, word.data slot)

namespace Sequencer

/-! ## Registers of counters -/

/-- The registers that control the loop or the subroutine with this counter. -/
def controlRegisters (counter : UInt8) : List UInt16 :=
  [Instruction.countRegister counter, Instruction.exitRegister counter,
    Instruction.startRegister counter]

theorem toNat_controlRegisters {counter : UInt8} (below : counter.toNat < hardwareCounters) :
    (Instruction.countRegister counter).toNat = counter.toNat ∧
    (Instruction.exitRegister counter).toNat = 16 + counter.toNat ∧
    (Instruction.startRegister counter).toNat = 32 + counter.toNat := by
  unfold hardwareCounters at below
  simp only [Instruction.countRegister, Instruction.exitRegister, Instruction.startRegister]
  refine ⟨UInt8.toNat_toUInt16 _, ?_, ?_⟩
  · rw [UInt16.toNat_add, UInt8.toNat_toUInt16]
    exact Nat.mod_eq_of_lt (show 16 + counter.toNat < 2 ^ 16 by omega)
  · rw [UInt16.toNat_add, UInt8.toNat_toUInt16]
    exact Nat.mod_eq_of_lt (show 32 + counter.toNat < 2 ^ 16 by omega)

/-- No register belongs to two counters. -/
theorem controlRegisters_disjoint {first second : UInt8} {register : UInt16}
    (belowFirst : first.toNat < hardwareCounters) (belowSecond : second.toNat < hardwareCounters)
    (inFirst : register ∈ controlRegisters first) (inSecond : register ∈ controlRegisters second) :
    first = second := by
  rw [← UInt8.toNat_inj]
  have := toNat_controlRegisters belowFirst
  have := toNat_controlRegisters belowSecond
  unfold hardwareCounters at belowFirst belowSecond
  simp only [controlRegisters, List.mem_cons, List.not_mem_nil, or_false] at inFirst inSecond
  rcases inFirst with rfl | rfl | rfl <;> rcases inSecond with same | same | same <;>
    (have sameNumber := congrArg UInt16.toNat same; omega)

/-- The registers of the counters from `limit` on hold the same values. -/
def KeepsFrom (limit : Nat) (before after : UInt16 → UInt32) : Prop :=
  ∀ counter : UInt8, limit ≤ counter.toNat → counter.toNat < hardwareCounters →
    ∀ register ∈ controlRegisters counter, after register = before register

namespace KeepsFrom

variable {limit : Nat} {first second third : UInt16 → UInt32}

theorem refl (limit : Nat) (registers : UInt16 → UInt32) : KeepsFrom limit registers registers :=
  fun _ _ _ _ _ => rfl

theorem trans (before : KeepsFrom limit first second) (after : KeepsFrom limit second third) :
    KeepsFrom limit first third := by
  intro counter above below register present
  rw [after counter above below register present, before counter above below register present]

theorem mono {larger : Nat} (keeps : KeepsFrom limit first second) (le : limit ≤ larger) :
    KeepsFrom larger first second :=
  fun counter above => keeps counter (le.trans above)

/-- Writing a register of a lower counter. -/
theorem write {counter : UInt8} {register : UInt16} (below : counter.toNat < limit)
    (hardware : counter.toNat < hardwareCounters) (own : register ∈ controlRegisters counter)
    (registers : UInt16 → UInt32) (value : UInt32) :
    KeepsFrom limit registers (Sequencer.write registers register value) := by
  intro other above belowOther read present
  have different : read ≠ register := by
    rintro rfl
    have := controlRegisters_disjoint hardware belowOther own present
    subst this
    omega
  rw [Sequencer.write, if_neg different]

end KeepsFrom

/-! ## Loaded cells -/

/-- The program holds the instructions of the cells, none of them at the end of the main program. -/
def Loaded (program : Program) (cells : List Cell) : Prop :=
  ∀ cell ∈ cells, cell.address < UInt16.size ∧ cell.address ≠ program.mainLength ∧
    program.instructionsAt cell.address.toUInt16 = cell.instructions

theorem Loaded.mono {program : Program} {cells all : List Cell} (loaded : Loaded program all)
    (subset : cells ⊆ all) : Loaded program cells :=
  fun cell present => loaded cell (subset present)

/-- At the address of a loaded cell the sequencer executes the instructions of the cell. -/
theorem Loaded.moves {program : Program} {cells : List Cell} (loaded : Loaded program cells)
    {address : Nat} {instructions : List Instruction} (present : ⟨address, instructions⟩ ∈ cells)
    {s t : Sequencer} (pc : s.pc = address.toUInt16) (executed : s.execute instructions = some t) :
    Moves program s t := by
  obtain ⟨inside, notEnd, found⟩ := loaded _ present
  refine ⟨?_, ?_⟩
  · rw [pc, UInt16.toNat_ofNat_of_lt' inside]
    exact notEnd
  · rw [step, pc, found]
    exact executed

theorem toUInt16_succ (n : Nat) : (n + 1).toUInt16 = n.toUInt16 + 1 :=
  UInt16.ofNat_add n 1

/-- A register is written on the way to the next address. -/
theorem Loaded.sets {program : Program} {cells : List Cell} (loaded : Loaded program cells)
    {address : Nat} {register : UInt16} {value : UInt32}
    (present : ⟨address, [.setRegister register value]⟩ ∈ cells)
    {s : Sequencer} (pc : s.pc = address.toUInt16) :
    Moves program s (s.setRegister register value) ∧
      (s.setRegister register value).pc = (address + 1).toUInt16 := by
  refine ⟨loaded.moves present pc rfl, ?_⟩
  rw [toUInt16_succ, ← pc]
  rfl

/-- A row is loaded if its instructions are, one address after the other. -/
theorem row_cons_subset {start : Nat} {instruction : Instruction} {rest : List Instruction}
    {cells : List Cell} :
    Cell.row start (instruction :: rest) ⊆ cells ↔
      ⟨start, [instruction]⟩ ∈ cells ∧ Cell.row (start + 1) rest ⊆ cells :=
  List.cons_subset

/-! ## The contract of a stretch of code -/

/-- Entered at `start`, the code plays the words and arrives at `stop`. It keeps the registers of
the counters from `limit` on. -/
def Plays (program : Program) (limit start stop : Nat) (words : List OutputWord) : Prop :=
  ∀ s : Sequencer, s.pc = start.toUInt16 →
    ∃ t, Relation.ReflTransGen (Moves program) s t ∧ t.pc = stop.toUInt16 ∧
      t.played = s.played ++ words.map OutputWord.records ∧
      KeepsFrom limit s.registers t.registers

namespace Plays

variable {program : Program} {limit start stop : Nat} {words : List OutputWord}

theorem nil (program : Program) (limit start : Nat) : Plays program limit start start [] :=
  fun s pc => ⟨s, .refl, pc, by simp, .refl limit _⟩

theorem append {middle : Nat} {others : List OutputWord}
    (first : Plays program limit start middle words)
    (second : Plays program limit middle stop others) :
    Plays program limit start stop (words ++ others) := by
  intro s pc
  obtain ⟨m, movesFirst, pcFirst, playedFirst, keepsFirst⟩ := first s pc
  obtain ⟨t, movesSecond, pcSecond, playedSecond, keepsSecond⟩ := second m pcFirst
  refine ⟨t, movesFirst.trans movesSecond, pcSecond, ?_, keepsFirst.trans keepsSecond⟩
  rw [playedSecond, playedFirst, List.map_append, List.append_assoc]

/-- An output word is played at its address. -/
theorem word {board : Emission.Board} {word : OutputWord} {cells : List Cell}
    (loaded : Loaded program cells) (present : Emission.wordCell board word start ∈ cells)
    (limit : Nat) : Plays program limit start (start + 1) [word] := by
  intro s pc
  refine ⟨s.play word.records, .single (loaded.moves present pc rfl), ?_, rfl, .refl limit _⟩
  rw [toUInt16_succ, ← pc]
  rfl

end Plays

/-- The control registers of a loop while it runs. -/
structure Looping (counter : UInt8) (count : Nat) (exit start : Nat) (s : Sequencer) : Prop where
  count : (s.registers (Instruction.countRegister counter)).toNat = count
  exit : s.registers (Instruction.exitRegister counter) = exit.toUInt16.toUInt32
  start : s.registers (Instruction.startRegister counter) = start.toUInt16.toUInt32

theorem Looping.of_keeps {counter : UInt8} {count exit start : Nat} {s t : Sequencer}
    (looping : Looping counter count exit start s)
    (hardware : counter.toNat < hardwareCounters)
    (keeps : KeepsFrom counter.toNat s.registers t.registers) :
    Looping counter count exit start t := by
  have same := keeps counter le_rfl hardware
  refine ⟨?_, ?_, ?_⟩
  · rw [same _ (by simp [controlRegisters]), looping.count]
  · rw [same _ (by simp [controlRegisters]), looping.exit]
  · rw [same _ (by simp [controlRegisters]), looping.start]

@[simp] theorem write_self (registers : UInt16 → UInt32) (register : UInt16) (value : UInt32) :
    write registers register value register = value := if_pos rfl

@[simp] theorem write_of_ne {register other : UInt16} (different : other ≠ register)
    (registers : UInt16 → UInt32) (value : UInt32) :
    write registers register value other = registers other := if_neg different

/-- The three registers of a counter are different ones. -/
theorem controlRegisters_ne {counter : UInt8} (below : counter.toNat < hardwareCounters) :
    Instruction.exitRegister counter ≠ Instruction.countRegister counter ∧
    Instruction.startRegister counter ≠ Instruction.countRegister counter ∧
    Instruction.exitRegister counter ≠ Instruction.startRegister counter := by
  have := toNat_controlRegisters below
  simp only [ne_eq, ← UInt16.toNat_inj]
  omega

/-- A jump on a counter that has run out goes to the exit. -/
theorem jumpOn_leaves {s : Sequencer} {counter : UInt8} {exit : Nat}
    (count : (s.registers (Instruction.countRegister counter)).toNat ≤ 1)
    (exits : s.registers (Instruction.exitRegister counter) = exit.toUInt16.toUInt32) :
    (s.jumpOn counter).pc = exit.toUInt16 := by
  have out : (if s.registers (Instruction.countRegister counter) = 0 then 0
      else s.registers (Instruction.countRegister counter) - 1) = (0 : UInt32) := by
    generalize s.registers (Instruction.countRegister counter) = value at count
    split
    · rfl
    · next positive =>
      rw [← UInt32.toNat_inj] at positive ⊢
      have zero : (0 : UInt32).toNat = 0 := rfl
      have one : (1 : UInt32).toNat = 1 := rfl
      rw [UInt32.toNat_sub_of_le _ _ (by rw [UInt32.le_iff_toNat_le]; omega)]
      omega
  simp only [jumpOn, out, if_true, exits]
  exact UInt16.toUInt16_toUInt32 _

/-- A jump on a counter that has passes left starts the loop over. -/
theorem jumpOn_repeats {s : Sequencer} {counter : UInt8} {count exit start : Nat}
    (hardware : counter.toNat < hardwareCounters)
    (looping : Looping counter (count + 2) exit start s) :
    (s.jumpOn counter).pc = start.toUInt16 ∧
    Looping counter (count + 1) exit start (s.jumpOn counter) := by
  obtain ⟨exitNe, startNe, _⟩ := controlRegisters_ne hardware
  have one : (1 : UInt32).toNat = 1 := rfl
  have zero : (0 : UInt32).toNat = 0 := rfl
  have positive : s.registers (Instruction.countRegister counter) ≠ 0 := by
    intro empty
    have := looping.count
    rw [empty, zero] at this
    omega
  have left : (s.registers (Instruction.countRegister counter) - 1).toNat = count + 1 := by
    rw [UInt32.toNat_sub_of_le _ _ (by rw [UInt32.le_iff_toNat_le, looping.count]; omega),
      looping.count]
    rfl
  have more : s.registers (Instruction.countRegister counter) - 1 ≠ 0 := by
    intro empty
    rw [empty, zero] at left
    omega
  refine ⟨?_, ?_, ?_, ?_⟩
  · simp only [jumpOn, if_neg positive, if_neg more, looping.start]
    exact UInt16.toUInt16_toUInt32 _
  · simp only [jumpOn, if_neg positive, write_self, left]
  · simp only [jumpOn, write_of_ne exitNe, looping.exit]
  · simp only [jumpOn, write_of_ne startNe, looping.start]

theorem jumpOn_keeps {s : Sequencer} {counter : UInt8} {limit : Nat}
    (below : counter.toNat < limit) (hardware : counter.toNat < hardwareCounters) :
    KeepsFrom limit s.registers (s.jumpOn counter).registers :=
  .write below hardware (by simp [controlRegisters]) _ _

/-! ## Loops -/

section

variable {program : Program} {limit start length : Nat} {counter : UInt8}
  {words : List OutputWord} {cells : List Cell}

/-- The passes of a loop that are left, by induction on their number. -/
theorem passes (loaded : Loaded program cells)
    (closing : ⟨start + 3 + length, [.conditionalJump counter]⟩ ∈ cells)
    (below : counter.toNat < limit) (hardware : counter.toNat < hardwareCounters)
    (body : Plays program counter.toNat (start + 3) (start + 3 + length) words)
    {count exit : Nat} {s : Sequencer} (pc : s.pc = (start + 3).toUInt16)
    (looping : Looping counter (count + 1) exit (start + 3) s) :
    ∃ t, Relation.ReflTransGen (Moves program) s t ∧ t.pc = exit.toUInt16 ∧
      t.played = s.played ++ (List.replicate (count + 1) words).flatten.map OutputWord.records ∧
      KeepsFrom limit s.registers t.registers := by
  induction count generalizing s with
  | zero =>
    obtain ⟨m, moves, pcBody, played, keeps⟩ := body s pc
    have inside := looping.of_keeps hardware keeps
    refine ⟨m.jumpOn counter, moves.tail (loaded.moves closing pcBody rfl),
      jumpOn_leaves (by rw [inside.count]) inside.exit, ?_,
      (keeps.mono below.le).trans (jumpOn_keeps below hardware)⟩
    show m.played = _
    simp [played]
  | succ count ih =>
    obtain ⟨m, moves, pcBody, played, keeps⟩ := body s pc
    obtain ⟨pcAgain, again⟩ := jumpOn_repeats hardware (looping.of_keeps hardware keeps)
    obtain ⟨t, movesRest, pcRest, playedRest, keepsRest⟩ := ih pcAgain again
    refine ⟨t, (moves.tail (loaded.moves closing pcBody rfl)).trans movesRest, pcRest, ?_,
      ((keeps.mono below.le).trans (jumpOn_keeps below hardware)).trans keepsRest⟩
    have flattened : (List.replicate (count + 1 + 1) words).flatten
        = words ++ (List.replicate (count + 1) words).flatten := rfl
    rw [playedRest, flattened, List.map_append, ← List.append_assoc, ← played]
    rfl

/-- A loop plays its body as often as its count says. The preamble sets the three registers, and
none of them belongs to a counter of the body. -/
theorem Plays.loop (loaded : Loaded program cells) {times : UInt32}
    (preamble : Cell.row start [
      .setRegister (Instruction.countRegister counter) times,
      .setRegister (Instruction.exitRegister counter) (start + length + 4).toUInt16.toUInt32,
      .setRegister (Instruction.startRegister counter) (start + 3).toUInt16.toUInt32] ⊆ cells)
    (closing : ⟨start + 3 + length, [.conditionalJump counter]⟩ ∈ cells)
    (below : counter.toNat < limit) (hardware : counter.toNat < hardwareCounters)
    (nonempty : times ≠ 0)
    (body : Plays program counter.toNat (start + 3) (start + 3 + length) words) :
    Plays program limit start (start + length + 4)
      (List.replicate times.toNat words).flatten := by
  intro s pc
  obtain ⟨exitNe, startNe, exitNeStart⟩ := controlRegisters_ne hardware
  let s₁ := s.setRegister (Instruction.countRegister counter) times
  let s₂ := s₁.setRegister (Instruction.exitRegister counter)
    (start + length + 4).toUInt16.toUInt32
  let s₃ := s₂.setRegister (Instruction.startRegister counter) (start + 3).toUInt16.toUInt32
  simp only [row_cons_subset] at preamble
  obtain ⟨count, exit, first, _⟩ := preamble
  obtain ⟨moves₁, pc₁⟩ : Moves program s s₁ ∧ _ := loaded.sets count pc
  obtain ⟨moves₂, pc₂⟩ : Moves program s₁ s₂ ∧ _ := loaded.sets exit pc₁
  obtain ⟨moves₃, pc₃⟩ : Moves program s₂ s₃ ∧ _ := loaded.sets first pc₂
  have keeps : KeepsFrom limit s.registers s₃.registers :=
    ((KeepsFrom.write below hardware (by simp [controlRegisters]) _ _).trans
      (.write below hardware (by simp [controlRegisters]) _ _)).trans
      (.write below hardware (by simp [controlRegisters]) _ _)
  obtain ⟨count, isCount⟩ : ∃ count, times.toNat = count + 1 := by
    refine Nat.exists_eq_succ_of_ne_zero fun zero => nonempty ?_
    rw [← UInt32.toNat_inj]
    exact zero
  have looping : Looping counter (count + 1) (start + length + 4) (start + 3) s₃ := by
    refine ⟨?_, ?_, ?_⟩
    · simp [s₃, s₂, s₁, setRegister, Ne.symm startNe, Ne.symm exitNe, isCount]
    · simp [s₃, s₂, setRegister, exitNeStart]
    · simp [s₃, setRegister]
  obtain ⟨t, moves, pcEnd, played, keepsPasses⟩ :=
    passes loaded closing below hardware body pc₃ looping
  refine ⟨t, (((Relation.ReflTransGen.single moves₁).tail moves₂).tail moves₃).trans moves, pcEnd,
    ?_, keeps.trans keepsPasses⟩
  rw [played, isCount]
  rfl

/-! ## Calls -/

/-- A call plays the body of its subroutine. The count is zero, so the closing jump of the body goes
to the return address. -/
theorem Plays.call (loaded : Loaded program cells) {target : Nat}
    (control : Cell.row start [
      .setRegister (Instruction.countRegister counter) 0,
      .setRegister (Instruction.exitRegister counter) (start + 3).toUInt16.toUInt32,
      .jump target.toUInt16] ⊆ cells)
    {routine : List Cell} (loadedRoutine : Loaded program routine)
    (closing : ⟨target + length, [.conditionalJump counter]⟩ ∈ routine)
    (below : counter.toNat < limit) (hardware : counter.toNat < hardwareCounters)
    (body : Plays program counter.toNat target (target + length) words) :
    Plays program limit start (start + 3) words := by
  intro s pc
  obtain ⟨exitNe, _, _⟩ := controlRegisters_ne hardware
  let s₁ := s.setRegister (Instruction.countRegister counter) 0
  let s₂ := s₁.setRegister (Instruction.exitRegister counter) (start + 3).toUInt16.toUInt32
  let s₃ : Sequencer := { s₂ with pc := target.toUInt16 }
  simp only [row_cons_subset] at control
  obtain ⟨count, exit, jump, _⟩ := control
  obtain ⟨moves₁, pc₁⟩ : Moves program s s₁ ∧ _ := loaded.sets count pc
  obtain ⟨moves₂, pc₂⟩ : Moves program s₁ s₂ ∧ _ := loaded.sets exit pc₁
  have moves₃ : Moves program s₂ s₃ := loaded.moves jump pc₂ rfl
  have keeps : KeepsFrom limit s.registers s₃.registers :=
    (KeepsFrom.write below hardware (by simp [controlRegisters]) _ _).trans
      (.write below hardware (by simp [controlRegisters]) _ _)
  obtain ⟨m, moves, pcBody, played, keepsBody⟩ := body s₃ rfl
  have same := keepsBody counter le_rfl hardware
  have count : (m.registers (Instruction.countRegister counter)).toNat ≤ 1 := by
    rw [same _ (by simp [controlRegisters])]
    simp [s₃, s₂, s₁, setRegister, Ne.symm exitNe]
  have exits : m.registers (Instruction.exitRegister counter)
      = (start + 3).toUInt16.toUInt32 := by
    rw [same _ (by simp [controlRegisters])]
    simp [s₃, s₂, setRegister]
  refine ⟨m.jumpOn counter, ?_, jumpOn_leaves count exits, played,
    keeps.trans ((keepsBody.mono below.le).trans (jumpOn_keeps below hardware))⟩
  exact ((((Relation.ReflTransGen.single moves₁).tail moves₂).tail moves₃).trans moves).tail
    (loadedRoutine.moves closing pcBody rfl)

end

/-! ## Nodes -/

/-- A subroutine in memory: where a call finds it, and a counter that fits. -/
structure LinkedAt (program : Program) (board : Emission.Board) (routines : List Routine)
    (routine : Routine) (target : Emission.Target) : Prop where
  counter : target.counter = routine.counter
  hardware : routine.counter < hardwareCounters
  fits : Node.FitsAll (ProgramGraph.counterOf routines) routine.counter routine.body
  body : ∃ body, Emission.nodes board target.address routine.body = .ok body ∧
    Loaded program (⟨target.address + Node.lengthAll routine.body,
      [.conditionalJump routine.counter.toUInt8]⟩ :: body.cells)

/-- All subroutines are in memory. -/
def Linked (program : Program) (board : Emission.Board) (routines : List Routine) : Prop :=
  ∀ (index : Nat) (routine : Routine), routines[index]? = some routine →
    ∃ target, board.targets[index]? = some target ∧
      LinkedAt program board routines routine target

theorem toNat_toUInt8 {counter : Nat} (hardware : counter < hardwareCounters) :
    counter.toUInt8.toNat = counter := by
  unfold hardwareCounters at hardware
  exact UInt8.toNat_ofNat_of_lt' (show counter < 2 ^ 8 by omega)

section

variable {program : Program} {board : Emission.Board} {routines : List Routine}
  {limit start : Nat} {emission : Emission} {inner : List OutputWord}

/-- An emitted loop plays what its emitted body plays, as often as its count says. -/
theorem plays_loop {times : UInt32} {counter : Nat} {body : List Node}
    (ok : Emission.node board start (.loop times counter body) = .ok emission)
    (loaded : Loaded program emission.cells) (below : counter < limit)
    (hardware : limit ≤ hardwareCounters)
    (plays : ∀ {emitted : Emission}, Emission.nodes board (start + 3) body = .ok emitted →
      Loaded program emitted.cells →
      Plays program counter (start + 3) (start + 3 + Node.lengthAll body) inner) :
    Plays program limit start (start + (Node.loop times counter body).length)
      (List.replicate times.toNat inner).flatten := by
  obtain ⟨control, emitted, foundControl, foundBody, cells⟩ := Emission.node_loop_eq_ok ok
  obtain ⟨nonempty, _, _, rfl⟩ := Instruction.loopControl_eq_ok_iff.mp foundControl
  rw [cells] at loaded
  have body := plays foundBody (loaded.mono fun cell present => by simp [present])
  rw [← toNat_toUInt8 (below.trans_le hardware)] at body below
  simp only [Node.length, Node.loopOverhead, ← Nat.add_assoc]
  exact .loop loaded (by simp) (by simp [Cell.row]) below (below.trans_le hardware) nonempty body

/-- An emitted call plays what the emitted body of its subroutine plays. -/
theorem plays_call {index : Nat} {routine : Routine} {target : Emission.Target}
    (linkedAt : LinkedAt program board routines routine target)
    (found : board.targets[index]? = some target)
    (ok : Emission.node board start (.call index) = .ok emission)
    (loaded : Loaded program emission.cells) (below : routine.counter < limit)
    (plays : ∀ {emitted : Emission},
      Emission.nodes board target.address routine.body = .ok emitted →
      Loaded program emitted.cells →
      Plays program routine.counter target.address
        (target.address + Node.lengthAll routine.body) inner) :
    Plays program limit start (start + (Node.call index).length) inner := by
  rw [Emission.node] at ok
  obtain ⟨target', instructions, found', control, cells⟩ := Emission.call_eq_ok ok
  obtain rfl : target = target' := Option.some.inj (found.symm.trans found')
  obtain ⟨_, _, _, rfl⟩ := Instruction.callControl_eq_ok_iff.mp control
  obtain ⟨emitted, foundBody, loadedBody⟩ := linkedAt.body
  rw [cells, linkedAt.counter] at loaded
  have body := plays foundBody (loadedBody.mono (List.subset_cons_self _ _))
  have hardware := linkedAt.hardware
  rw [← toNat_toUInt8 linkedAt.hardware] at body below hardware
  exact .call loaded (by simp) loadedBody List.mem_cons_self below hardware body

/-- Emitted nodes play the words that they unroll to. The induction follows the unrolling, which
enters the body of a subroutine at every call of it. -/
theorem plays_nodes (linked : Linked program board routines) {nodes : List Node}
    {words : List OutputWord} (unrolled : Unrolled board.rf routines nodes words) :
    ∀ {limit start : Nat} {emission : Emission}, limit ≤ hardwareCounters →
      Node.FitsAll (ProgramGraph.counterOf routines) limit nodes →
      Emission.nodes board start nodes = .ok emission → Loaded program emission.cells →
      Plays program limit start (start + Node.lengthAll nodes) words := by
  induction unrolled with
  | nil =>
    intro limit start emission _ _ _ _
    exact .nil program limit start
  | @empty rest words _ ih =>
    intro limit start emission hardware fits ok loaded
    obtain ⟨head, others, _, foundRest, cells⟩ := Emission.nodes_cons_eq_ok ok
    simp only [Node.length, List.length_nil, Nat.add_zero] at foundRest
    simp only [Node.lengthAll, Node.length, List.length_nil, Nat.zero_add]
    refine ih hardware fits.2 foundRest (loaded.mono ?_)
    rw [cells]
    exact List.subset_append_right _ _
  | @timestamp t ts rest word words found _ ih =>
    intro limit start emission hardware fits ok loaded
    obtain ⟨word', others, found', foundRest, cells⟩ := Emission.nodes_block_cons_eq_ok ok
    obtain rfl : word = word' := Except.ok.inj (found.symm.trans found')
    have first : Plays program limit start (start + 1) [word] :=
      .word loaded (by rw [cells]; exact List.mem_cons_self) limit
    have second := ih hardware ⟨trivial, fits.2⟩ foundRest
      (loaded.mono (by rw [cells]; exact List.subset_cons_self _ _))
    have length : start + Node.lengthAll (.block (t :: ts) :: rest)
        = start + 1 + Node.lengthAll (.block ts :: rest) := by
      simp only [Node.lengthAll, Node.length, List.length_cons]
      omega
    rw [length]
    exact first.append second
  | @loop times counter body rest inner words _ _ ihBody ihRest =>
    intro limit start emission hardware fits ok loaded
    obtain ⟨⟨below, fitsBody⟩, fitsRest⟩ := fits
    obtain ⟨head, others, foundHead, foundRest, cells⟩ := Emission.nodes_cons_eq_ok ok
    rw [cells] at loaded
    have first := plays_loop foundHead (loaded.mono (List.subset_append_left _ _)) below hardware
      (ihBody (below.le.trans hardware) fitsBody)
    have second := ihRest hardware fitsRest foundRest
      (loaded.mono (List.subset_append_right _ _))
    rw [Node.lengthAll, ← Nat.add_assoc]
    exact first.append second
  | @call index routine rest inner words found _ _ ihBody ihRest =>
    intro limit start emission hardware fits ok loaded
    obtain ⟨⟨counter, foundCounter, below⟩, fitsRest⟩ := fits
    obtain ⟨head, others, foundHead, foundRest, cells⟩ := Emission.nodes_cons_eq_ok ok
    obtain ⟨target, foundTarget, linkedAt⟩ := linked index routine found
    obtain rfl : routine.counter = counter := by
      rw [ProgramGraph.counterOf, found] at foundCounter
      exact Option.some.inj foundCounter
    rw [cells] at loaded
    have first := plays_call linkedAt foundTarget foundHead
      (loaded.mono (List.subset_append_left _ _)) below
      (ihBody linkedAt.hardware.le linkedAt.fits)
    have second := ihRest hardware fitsRest foundRest
      (loaded.mono (List.subset_append_right _ _))
    rw [Node.lengthAll, ← Nat.add_assoc]
    exact first.append second

end

end Sequencer

/-! ## Programs -/

open Sequencer

/-- A board drives the only RF channel of its group. -/
theorem rfOutput_eq_ok {group : String} {channels : ChannelSet} {rf : Nat}
    (ok : rfOutput group channels = .ok rf) :
    ∃ index : Fin 4, channels.toList.filter Channel.isRf = [.rf index] ∧ index.val = rf := by
  unfold rfOutput at ok
  split at ok
  · next channel only =>
    cases ok
    have present : channel ∈ channels.toList.filter Channel.isRf := by
      rw [only]
      exact List.mem_singleton_self channel
    cases channel with
    | rf index => exact ⟨index, only, rfl⟩
    | digital => cases (List.mem_filter.mp present).2
  · cases ok
  · cases ok

/-- The stages of a successful compilation. -/
structure Stages (options : CompileOptions) (element : Element) (group : String)
    (channels : ChannelSet) (program : Program) (projected : Element) (rf top : Nat)
    (graph assigned : ProgramGraph) (layout : Layout) : Prop where
  foundTop : options.settings.topAddress = .ok top
  foundOutput : rfOutput group channels = .ok rf
  foundProjected : element.project channels = .ok projected
  foundGraph : ProgramGraph.ofElement projected = .ok graph
  foundAssigned : graph.assignCounters group options.settings.counterCount.toNat = .ok assigned
  foundLayout : assigned.layout top = .ok layout
  foundProgram : ∃ events, assigned.emit layout rf top = .ok (program, events)

theorem compileGroup_eq_ok {options : CompileOptions} {element : Element} {group : String}
    {channels : ChannelSet} {program : Program} {events : List LogEvent}
    (ok : compileGroup options element group channels = .ok (program, events)) :
    ∃ projected rf top graph assigned layout,
      Stages options element group channels program projected rf top graph assigned layout := by
  simp only [compileGroup, Except.bind_eq_ok_iff, Except.mapError_eq_ok_iff, Except.pure_eq_ok,
    Except.ok.injEq, Prod.mk.injEq] at ok
  obtain ⟨top, foundTop, rf, foundRf, projected, foundProjected, graph, foundGraph, assigned,
    foundAssigned, layout, foundLayout, ⟨_, emitted⟩, foundProgram, rfl, _⟩ := ok
  exact ⟨projected, rf, top, graph, assigned, layout, foundTop, foundRf, foundProjected, foundGraph,
    foundAssigned, foundLayout, emitted, foundProgram⟩

/-- The subroutines of an emitted graph are where its calls find them. -/
theorem ProgramGraph.Emitted.linked {graph assigned : ProgramGraph} {layout : Layout}
    {rf top limit : Nat} {program : Program} {main routines : Emission}
    (emitted : Emitted assigned layout rf top program main routines)
    (laid : assigned.layout top = .ok layout) (counters : Assigned graph assigned limit)
    (hardware : limit ≤ hardwareCounters)
    (loaded : Loaded program (main.cells ++ routines.cells)) :
    Linked program (assigned.board layout rf) assigned.routines := by
  intro index routine found
  obtain ⟨_, lowest, placed, _⟩ := layout_eq_ok laid
  obtain ⟨original, _, assignedFrom⟩ := counters.routine index routine found
  obtain ⟨range, pair⟩ := placed.exists_range found
  have present := List.mem_of_getElem? pair
  obtain ⟨_, last, _⟩ := placed.range_of_mem present
  obtain ⟨part, foundPart, subset⟩ := Emission.routine_of_mem emitted.emittedRoutines present
  obtain ⟨body, foundBody, _, cells⟩ := Emission.routine_eq_ok foundPart
  refine ⟨⟨range.first, routine.counter⟩, ?_, rfl, assignedFrom.below.trans_le hardware,
    assignedFrom.fits, body, foundBody, loaded.mono ?_⟩
  · simp [ProgramGraph.board, pair]
  · refine List.Subset.trans ?_ (List.subset_append_of_subset_right _ subset)
    rw [cells, ← last]
    simp [Cell.row]

/-- The words of the element, in terms of the nodes with their counters. -/
theorem ProgramGraph.Emitted.unrolled {graph assigned : ProgramGraph} {layout : Layout}
    {rf top limit : Nat} {program : Program} {main routines : Emission} {e : Element}
    (emitted : Emitted assigned layout rf top program main routines) (graphOf : GraphOf e graph)
    (counters : Assigned graph assigned limit)
    (linked : Linked program (assigned.board layout rf) assigned.routines) :
    ∃ words, e.unrolled rf = some words ∧
      Unrolled rf assigned.routines assigned.main words := by
  obtain ⟨nodes, lowered, sameMain⟩ := graphOf.main
  have wordsMain : HaveWords rf (Node.timestampsAll nodes) := by
    have words := Emission.haveWords_nodes emitted.emittedMain
    rwa [← Node.timestampsAll_bareAll, counters.main, Node.timestampsAll_bareAll, sameMain,
      Node.timestampsAll_joinBlocks] at words
  have wordsBodies : ∀ routine ∈ graph.routines,
      HaveWords rf (Node.timestampsAll routine.body) := by
    intro routine present
    obtain ⟨index, found⟩ := List.mem_iff_getElem?.mp present
    obtain ⟨routine', found', same⟩ := counters.bodies index routine found
    obtain ⟨target, _, linkedAt⟩ := linked index routine' found'
    obtain ⟨body, foundBody, _⟩ := linkedAt.body
    have words := Emission.haveWords_nodes foundBody
    rwa [← Node.timestampsAll_bareAll, same, Node.timestampsAll_bareAll] at words
  obtain ⟨words, foundWords, unrolled⟩ :=
    Lowered.unrolled graphOf.filled wordsBodies le_rfl lowered wordsMain
  refine ⟨words, foundWords, unrolled.joinBlocks.of_bareAll counters.bodies ?_⟩
  rw [counters.main, sameMain]

/-- The program that the stages end in plays the words of the projection. -/
theorem Stages.completes {options : CompileOptions} {element : Element} {group : String}
    {channels : ChannelSet} {program : Program} {projected : Element} {rf top : Nat}
    {graph assigned : ProgramGraph} {layout : Layout}
    (stages : Stages options element group channels program projected rf top graph assigned layout)
    (registers : UInt16 → UInt32) :
    ∃ words final, projected.unrolled rf = some words ∧ Completes program registers final ∧
      final.played = words.map OutputWord.records := by
  obtain ⟨_, foundProgram⟩ := stages.foundProgram
  obtain ⟨main, routines, emitted⟩ := ProgramGraph.emit_eq_ok foundProgram
  obtain ⟨hardware, topLe⟩ := Settings.topAddress_eq_ok stages.foundTop
  have graphOf := ProgramGraph.ofElement_spec stages.foundGraph
  obtain tooMany | ⟨assigned', foundAssigned, counters⟩ :=
    graphOf.assignCounters group options.settings.counterCount.toNat
  · rw [stages.foundAssigned] at tooMany
    cases tooMany
  obtain rfl : assigned = assigned' :=
    Except.ok.inj (stages.foundAssigned.symm.trans foundAssigned)
  have small : top < UInt16.size := Nat.lt_of_le_of_lt topLe (by decide)
  have loaded : Loaded program (main.cells ++ routines.cells) :=
    emitted.instructionsAt stages.foundLayout small
  have linked := emitted.linked stages.foundLayout counters hardware loaded
  obtain ⟨words, foundWords, unrolled⟩ := emitted.unrolled graphOf counters linked
  have plays := plays_nodes linked unrolled hardware counters.fits emitted.emittedMain
    (loaded.mono (List.subset_append_left _ _))
  obtain ⟨final, moves, pc, played, _⟩ := plays (.start registers) rfl
  obtain ⟨steps, reached, earlier⟩ := moves_run moves
  refine ⟨words, final, foundWords, ⟨steps, reached, ?_, earlier⟩, played⟩
  obtain ⟨length, lowest, placed, below⟩ := ProgramGraph.layout_eq_ok stages.foundLayout
  have lowestLe := placed.lowest_le
  have mainLength : program.mainLength = layout.mainLength := by rw [emitted.program]; rfl
  rw [pc, Nat.zero_add, ← length, mainLength,
    UInt16.toNat_ofNat_of_lt' (show layout.mainLength < UInt16.size by omega)]

/-- The program of a channel group plays the projection of the element, every repetition written
out, whatever the registers hold at the start. It never stands at an address without an instruction
and reaches the end of the main program once, at the end. -/
theorem compileGroup_plays {options : CompileOptions} {element : Element} {group : String}
    {channels : ChannelSet} {program : Program} {events : List LogEvent}
    (ok : compileGroup options element group channels = .ok (program, events))
    (registers : UInt16 → UInt32) :
    ∃ projected rf words steps final,
      element.project channels = .ok projected ∧ rfOutput group channels = .ok rf ∧
      projected.unrolled rf = some words ∧
      Sequencer.run program steps (.start registers) = some final ∧
      final.pc.toNat = program.mainLength ∧ final.played = words.map OutputWord.records ∧
      ∀ earlier < steps, ∃ s, Sequencer.run program earlier (.start registers) = some s ∧
        s.pc.toNat ≠ program.mainLength := by
  obtain ⟨projected, rf, top, graph, assigned, layout, stages⟩ := compileGroup_eq_ok ok
  obtain ⟨words, final, foundWords, ⟨steps, reached, pc, earlier⟩, played⟩ :=
    stages.completes registers
  exact ⟨projected, rf, words, steps, final, stages.foundProjected, stages.foundOutput, foundWords,
    reached, pc, played, earlier⟩

/-- One second with the first digital output on, as a subroutine in a loop and again after it. -/
def sharedSecond : Element :=
  let second : Element := .timestamp (.second (.ofLevel 0 (some true)))
  .sequence [.repeated (.sequence [second, .subroutine second]) 3, .subroutine second]

theorem compileGroup_plays_sharedSecond :
    ∃ program events,
      compileGroup ⟨{ Settings.default with addressBits := 5 }, false⟩ sharedSecond "board"
        (.ofList [.rf 0, .digital 0]) = .ok (program, events) ∧
      ∃ projected rf words steps final,
        sharedSecond.project (.ofList [.rf 0, .digital 0]) = .ok projected ∧
        rfOutput "board" (.ofList [.rf 0, .digital 0]) = .ok rf ∧
        projected.unrolled rf = some words ∧
        Sequencer.run program steps (.start fun _ => 7) = some final ∧
        final.pc.toNat = program.mainLength ∧ final.played = words.map OutputWord.records ∧
        ∀ earlier < steps, ∃ s, Sequencer.run program earlier (.start fun _ => 7) = some s ∧
          s.pc.toNat ≠ program.mainLength := by
  have isOk : (compileGroup ⟨{ Settings.default with addressBits := 5 }, false⟩ sharedSecond
      "board" (.ofList [.rf 0, .digital 0])).isOk = true := by
    decide +kernel
  obtain ⟨⟨program, events⟩, ok⟩ := Except.exists_ok_of_isOk isOk
  exact ⟨program, events, ok, compileGroup_plays ok fun _ => 7⟩

end PulseSequencer

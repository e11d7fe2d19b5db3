import PulseSequencer.Program.Emission
import PulseSequencer.Proofs.Program.Lookup
import PulseSequencer.Proofs.Results

/-!
# Instruction memory

Where the instructions of a program stand.

Results:
1. `instructionsAt_cells`: looking up the address of a cell finds its instructions.
2. `Placed`: subroutines lie directly below one another; `placeRoutines_spec` ties the layout to it.
3. `addresses_nodes`, `addresses_routines`: emitted cells fill the addresses of their nodes and
   subroutines one by one, without a gap.
4. `checkMemory_ok_iff`: the memory check passes exactly if no address occurs twice, all addresses
   are inside, and all reserved addresses occur.
-/

namespace PulseSequencer

/-! ## Looking up a cell -/

namespace Program

/-- Of the words of a cell, a look-up takes all or none. -/
theorem filter_words (cell : Cell) (address : UInt16) :
    cell.words.filter (fun word => word.address = address)
      = if cell.address.toUInt16 = address then cell.words else [] := by
  split
  · next same => simp [Cell.words, same]
  · next other => simp [Cell.words, other]

theorem eq_of_toUInt16_eq {a b : Nat} (insideA : a < UInt16.size) (insideB : b < UInt16.size)
    (same : a.toUInt16 = b.toUInt16) : a = b := by
  have := congrArg UInt16.toNat same
  rwa [UInt16.toNat_ofNat_of_lt' insideA, UInt16.toNat_ofNat_of_lt' insideB] at this

/-- The words of cells at distinct addresses of 16 bits: looking up the address of a cell finds its
instructions. -/
theorem instructionsAt_cells {cells : List Cell} (layout : Layout)
    (distinct : (cells.map Cell.address).Nodup)
    (inside : ∀ cell ∈ cells, cell.address < UInt16.size)
    {cell : Cell} (present : cell ∈ cells) :
    (ofWords (cells.flatMap Cell.words) layout).instructionsAt cell.address.toUInt16
      = cell.instructions := by
  have injective : ∀ other ∈ cells, other.address.toUInt16 = cell.address.toUInt16 →
      other.address = cell.address := by
    intro other inCells same
    exact eq_of_toUInt16_eq (inside other inCells) (inside cell present) same
  rw [instructionsAt_ofWords]
  clear inside
  induction cells with
  | nil => cases present
  | cons first rest ih =>
    obtain ⟨notInRest, distinctRest⟩ := List.nodup_cons.mp distinct
    have injectiveRest := fun other inRest => injective other (List.mem_cons_of_mem _ inRest)
    rw [List.flatMap_cons, List.filter_append, filter_words]
    rcases List.mem_cons.mp present with rfl | inRest
    · -- No later cell has the address of the first one.
      have none : (rest.flatMap Cell.words).filter
          (fun word => decide (word.address = cell.address.toUInt16)) = [] := by
        rw [List.filter_eq_nil_iff]
        intro word inWords same
        obtain ⟨other, inCells, inCell⟩ := List.mem_flatMap.mp inWords
        obtain ⟨instruction, _, rfl⟩ := List.mem_map.mp inCell
        exact notInRest (List.mem_map.mpr
          ⟨other, inCells, injectiveRest other inCells (of_decide_eq_true same)⟩)
      rw [if_pos rfl, none]
      simp [Cell.words, Function.comp_def]
    · have other : first.address.toUInt16 ≠ cell.address.toUInt16 := by
        intro same
        exact notInRest (List.mem_map.mpr
          ⟨cell, inRest, (injective first List.mem_cons_self same).symm⟩)
      rw [if_neg other, List.nil_append]
      exact ih distinctRest inRest injectiveRest

end Program

/-! ## The place of subroutines -/

/-- `Placed top routines ranges lowest`: the ranges of subroutines directly below one another, from
`top` down to `lowest`. -/
inductive Placed : Nat → List Routine → List AddressRange → Nat → Prop
  | nil (top : Nat) : Placed top [] [] top
  | cons {first lowest : Nat} {routine : Routine} {routines : List Routine}
      {ranges : List AddressRange} :
      Placed first routines ranges lowest →
      Placed (first + routine.length) (routine :: routines)
        (⟨first, first + routine.length - 1⟩ :: ranges) lowest

theorem placeRoutines_spec {top lowest : Nat} {routines : List Routine}
    {ranges : List AddressRange}
    (ok : ProgramGraph.placeRoutines top routines = .ok (ranges, lowest)) :
    Placed top routines ranges lowest := by
  induction routines generalizing top ranges with
  | nil =>
    simp only [ProgramGraph.placeRoutines, Except.ok.injEq, Prod.mk.injEq] at ok
    obtain ⟨rfl, rfl⟩ := ok
    exact .nil top
  | cons routine rest ih =>
    rw [ProgramGraph.placeRoutines] at ok
    split at ok
    · cases ok
    · next fits =>
      simp only [Except.bind_eq_ok_iff, Except.pure_eq_ok, Except.ok.injEq, Prod.mk.injEq] at ok
      obtain ⟨⟨others, low⟩, found, rfl, rfl⟩ := ok
      have placed : Placed (top - routine.length + routine.length) (routine :: rest) _ _ :=
        .cons (ih found)
      rwa [Nat.sub_add_cancel (by omega)] at placed

theorem Routine.length_pos (routine : Routine) : 0 < routine.length :=
  Nat.succ_pos _

namespace Placed

variable {top lowest : Nat} {routines : List Routine} {ranges : List AddressRange}

theorem length_eq (placed : Placed top routines ranges lowest) :
    ranges.length = routines.length := by
  induction placed with
  | nil top => rfl
  | cons _ ih => simp [ih]

/-- Every subroutine has a range. -/
theorem exists_range (placed : Placed top routines ranges lowest) {index : Nat}
    {routine : Routine} (found : routines[index]? = some routine) :
    ∃ range, (routines.zip ranges)[index]? = some (routine, range) := by
  have inside := (List.getElem?_eq_some_iff.mp found).1
  rw [← placed.length_eq] at inside
  exact ⟨_, List.getElem?_zip_eq_some.mpr ⟨found, List.getElem?_eq_getElem inside⟩⟩

theorem lowest_le (placed : Placed top routines ranges lowest) : lowest ≤ top := by
  induction placed with
  | nil top => exact Nat.le_refl _
  | cons _ ih => omega

/-- The range of a subroutine holds its body and its closing jump, between the two ends. -/
theorem range_of_mem (placed : Placed top routines ranges lowest) {routine : Routine}
    {range : AddressRange} (present : (routine, range) ∈ routines.zip ranges) :
    lowest ≤ range.first ∧ range.last = range.first + Node.lengthAll routine.body ∧
    range.last < top := by
  induction placed with
  | nil top => cases present
  | @cons first lowest head rest others placed ih =>
    rw [List.zip_cons_cons, List.mem_cons] at present
    have positive := head.length_pos
    rcases present with same | later
    · obtain ⟨rfl, rfl⟩ := Prod.mk.inj same
      refine ⟨placed.lowest_le, ?_, ?_⟩
      · simp only [Routine.length]
        omega
      · simp only
        omega
    · obtain ⟨low, length, high⟩ := ih later
      exact ⟨low, length, by omega⟩

theorem addresses_eq (range : AddressRange) (le : range.first ≤ range.last) :
    ∀ address, address ∈ range.addresses ↔ range.first ≤ address ∧ address ≤ range.last := by
  intro address
  rw [AddressRange.addresses, List.mem_range'_1, AddressRange.size]
  omega

/-- No address is given to two subroutines. -/
theorem nodup (placed : Placed top routines ranges lowest) :
    (ranges.flatMap AddressRange.addresses).Nodup ∧
    ∀ address ∈ ranges.flatMap AddressRange.addresses, lowest ≤ address ∧ address < top := by
  induction placed with
  | nil top => simp
  | @cons first lowest routine rest others placed ih =>
    obtain ⟨distinct, between⟩ := ih
    have positive := routine.length_pos
    have low := placed.lowest_le
    have mem := addresses_eq ⟨first, first + routine.length - 1⟩ (by simp only; omega)
    rw [List.flatMap_cons]
    refine ⟨List.nodup_append.mpr ⟨List.nodup_range', distinct, ?_⟩, ?_⟩
    · rintro a inFirst b inRest rfl
      have := (mem a).mp inFirst
      have := between a inRest
      simp only at *
      omega
    · intro address present
      rcases List.mem_append.mp present with inFirst | inRest
      · have := (mem address).mp inFirst
        simp only at this
        omega
      · have := between address inRest
        omega

end Placed

/-! ## Limits -/

/-- Settings that are accepted stay within the counters and addresses of the hardware. -/
theorem Settings.topAddress_eq_ok {settings : Settings} {top : Nat}
    (ok : settings.topAddress = .ok top) :
    settings.counterCount.toNat ≤ hardwareCounters ∧ top ≤ maxAddress := by
  simp only [Settings.topAddress, Except.bind_eq_ok_iff, Except.pure_eq_ok, Except.ok.injEq] at ok
  obtain ⟨_, checked, rfl⟩ := ok
  unfold Settings.checkLimits at checked
  split at checked
  · cases checked
  · next counters =>
    split at checked
    · cases checked
    · next bits =>
      refine ⟨by omega, ?_⟩
      have le : 2 ^ settings.addressBits.toNat ≤ 2 ^ addressWidth :=
        Nat.pow_le_pow_right (by omega) (by omega)
      unfold maxAddress
      omega

/-! ## Control instructions -/

namespace Instruction

theorem checkAddress_eq_ok_iff {address : Nat} {result : UInt16} :
    checkAddress address = .ok result ↔ address ≤ maxAddress ∧ result = address.toUInt16 := by
  unfold checkAddress
  split
  · next inside =>
    simp only [Except.ok.injEq, inside, true_and]
    exact eq_comm
  · next outside => simp [outside]

theorem checkCounter_eq_ok_iff {counter : UInt8} {done : Unit} :
    checkCounter counter = .ok done ↔ counter.toNat < hardwareCounters := by
  unfold checkCounter
  split
  · next inside => simp [inside]
  · next outside => simp [outside]

theorem jumpOn_eq_ok_iff {counter : UInt8} {instruction : Instruction} :
    jumpOn counter = .ok instruction ↔
      counter.toNat < hardwareCounters ∧ instruction = .conditionalJump counter := by
  simp only [jumpOn, Except.bind_eq_ok_iff, checkCounter_eq_ok_iff, exists_const, Except.pure_eq_ok,
    Except.ok.injEq]
  exact and_congr_right fun _ => eq_comm

theorem callControl_eq_ok_iff {start target : Nat} {counter : UInt8}
    {instructions : List Instruction} :
    callControl start target counter = .ok instructions ↔
      counter.toNat < hardwareCounters ∧ start + 3 ≤ maxAddress ∧ target ≤ maxAddress ∧
      instructions = [
        .setRegister (countRegister counter) 0,
        .setRegister (exitRegister counter) (start + 3).toUInt16.toUInt32,
        .jump target.toUInt16] := by
  simp only [callControl, jumpTo, Except.bind_eq_ok_iff, checkCounter_eq_ok_iff,
    checkAddress_eq_ok_iff, Except.pure_eq_ok, Except.ok.injEq]
  constructor
  · rintro ⟨_, below, _, ⟨inside, rfl⟩, _, ⟨_, ⟨reachable, rfl⟩, rfl⟩, rfl⟩
    exact ⟨below, inside, reachable, rfl⟩
  · rintro ⟨below, inside, reachable, rfl⟩
    exact ⟨(), below, _, ⟨inside, rfl⟩, _, ⟨_, ⟨reachable, rfl⟩, rfl⟩, rfl⟩

theorem loopControl_eq_ok_iff {start length : Nat} {times : UInt32} {counter : UInt8}
    {control : LoopControl} :
    loopControl start length times counter = .ok control ↔
      times ≠ 0 ∧ counter.toNat < hardwareCounters ∧ start + length + 4 ≤ maxAddress ∧
      control = {
        preamble := [
          .setRegister (countRegister counter) times,
          .setRegister (exitRegister counter) (start + length + 4).toUInt16.toUInt32,
          .setRegister (startRegister counter) (start + 3).toUInt16.toUInt32]
        closing := .conditionalJump counter } := by
  unfold loopControl
  by_cases empty : times = 0
  · simp [empty]
  · simp only [empty, if_false, Except.bind_eq_ok_iff, checkCounter_eq_ok_iff,
      checkAddress_eq_ok_iff, Except.pure_eq_ok, Except.ok.injEq, ne_eq, not_false_eq_true,
      true_and]
    constructor
    · rintro ⟨_, below, _, ⟨_, rfl⟩, _, ⟨inside, rfl⟩, rfl⟩
      exact ⟨below, inside, rfl⟩
    · rintro ⟨below, inside, rfl⟩
      exact ⟨(), below, _, ⟨by omega, rfl⟩, _, ⟨inside, rfl⟩, rfl⟩

end Instruction

/-! ## Emitted cells -/

namespace Emission

@[simp] theorem cells_append (first second : Emission) :
    (first ++ second).cells = first.cells ++ second.cells := rfl

theorem addresses_row (start : Nat) (instructions : List Instruction) :
    (Cell.row start instructions).map Cell.address = List.range' start instructions.length := by
  simp only [Cell.row, List.map_map]
  exact List.zipIdx_map_snd start instructions

/-- The cell of an output word at an address. -/
def wordCell (board : Board) (word : OutputWord) (address : Nat) : Cell :=
  ⟨address, word.instructions board.rf.toUInt8 address.toUInt16⟩

theorem timestamp_eq_ok {board : Board} {t : Timestamp} {address : Nat}
    {result : Cell × Option LogEvent} (ok : timestamp board t address = .ok result) :
    ∃ word, OutputWord.ofTimestamp t board.rf = .ok word ∧
      result.1 = wordCell board word address := by
  unfold timestamp at ok
  split at ok
  · cases ok
  · next word found =>
    cases ok
    exact ⟨word, found, rfl⟩

/-- A block starts with the cell of its first timestamp. -/
theorem block_cons_eq_ok {board : Board} {start : Nat} {t : Timestamp} {rest : List Timestamp}
    {emission : Emission} (ok : block board start (t :: rest) = .ok emission) :
    ∃ word others, OutputWord.ofTimestamp t board.rf = .ok word ∧
      block board (start + 1) rest = .ok others ∧
      emission.cells = wordCell board word start :: others.cells := by
  simp only [block, List.zipIdx_cons, List.mapM_cons, Except.bind_eq_ok_iff, Except.pure_eq_ok,
    Except.ok.injEq] at ok
  obtain ⟨_, ⟨first, foundFirst, others, foundRest, rfl⟩, rfl⟩ := ok
  obtain ⟨word, found, same⟩ := timestamp_eq_ok foundFirst
  refine ⟨word, ⟨others.map Prod.fst, others.filterMap Prod.snd⟩, found, ?_, ?_⟩
  · simp only [block, Except.bind_eq_ok_iff, Except.pure_eq_ok]
    exact ⟨others, foundRest, rfl⟩
  · simp [same]

theorem block_nil_eq_ok {board : Board} {start : Nat} {emission : Emission}
    (ok : block board start [] = .ok emission) : emission.cells = [] := by
  cases ok
  rfl

/-- A call stands in three cells. -/
theorem call_eq_ok {board : Board} {start index : Nat} {emission : Emission}
    (ok : call board start index = .ok emission) :
    ∃ target instructions, board.targets[index]? = some target ∧
      Instruction.callControl start target.address target.counter.toUInt8 = .ok instructions ∧
      emission.cells = Cell.row start instructions := by
  unfold call at ok
  split at ok
  · cases ok
  · next target found =>
    split at ok
    · cases ok
    · next instructions control =>
      cases ok
      exact ⟨target, instructions, found, control, rfl⟩

/-- The cells of a loop: the preamble, the body, the closing jump. -/
theorem node_loop_eq_ok {board : Board} {start counter : Nat} {times : UInt32} {body : List Node}
    {emission : Emission} (ok : node board start (.loop times counter body) = .ok emission) :
    ∃ control inner,
      Instruction.loopControl start (Node.lengthAll body) times counter.toUInt8 = .ok control ∧
      nodes board (start + 3) body = .ok inner ∧
      emission.cells = Cell.row start control.preamble ++ inner.cells
        ++ Cell.row (start + 3 + Node.lengthAll body) [control.closing] := by
  simp only [node, Except.bind_eq_ok_iff] at ok
  obtain ⟨inner, found, ok⟩ := ok
  unfold loop at ok
  split at ok
  · cases ok
  · next control foundControl =>
    cases ok
    exact ⟨control, inner, foundControl, found, rfl⟩

/-- Nodes in a row follow one another in memory. -/
theorem nodes_cons_eq_ok {board : Board} {start : Nat} {first : Node} {rest : List Node}
    {emission : Emission} (ok : nodes board start (first :: rest) = .ok emission) :
    ∃ head others, node board start first = .ok head ∧
      nodes board (start + first.length) rest = .ok others ∧
      emission.cells = head.cells ++ others.cells := by
  simp only [nodes, Except.bind_eq_ok_iff, Except.pure_eq_ok, Except.ok.injEq] at ok
  obtain ⟨head, foundHead, others, foundRest, rfl⟩ := ok
  exact ⟨head, others, foundHead, foundRest, rfl⟩

/-- A block in a row gives up its first timestamp to the address where it starts. -/
theorem nodes_block_cons_eq_ok {board : Board} {start : Nat} {t : Timestamp}
    {timestamps : List Timestamp} {rest : List Node} {emission : Emission}
    (ok : nodes board start (.block (t :: timestamps) :: rest) = .ok emission) :
    ∃ word others, OutputWord.ofTimestamp t board.rf = .ok word ∧
      nodes board (start + 1) (.block timestamps :: rest) = .ok others ∧
      emission.cells = wordCell board word start :: others.cells := by
  obtain ⟨head, others, foundHead, foundRest, cells⟩ := nodes_cons_eq_ok ok
  rw [node] at foundHead
  obtain ⟨word, headRest, found, foundBlock, headCells⟩ := block_cons_eq_ok foundHead
  have next : start + Node.length (.block (t :: timestamps))
      = start + 1 + Node.length (.block timestamps) := by
    simp only [Node.length, List.length_cons]
    omega
  refine ⟨word, headRest ++ others, found, ?_, by rw [cells, headCells]; rfl⟩
  rw [nodes, node, foundBlock, ← next, foundRest]
  rfl

theorem addresses_block {board : Board} {start : Nat} {timestamps : List Timestamp}
    {emission : Emission} (ok : block board start timestamps = .ok emission) :
    emission.cells.map Cell.address = List.range' start timestamps.length := by
  induction timestamps generalizing start emission with
  | nil => rw [block_nil_eq_ok ok]; rfl
  | cons t rest ih =>
    obtain ⟨word, others, _, found, cells⟩ := block_cons_eq_ok ok
    rw [cells, List.map_cons, ih found, List.length_cons, List.range'_succ]
    rfl

mutual

theorem addresses_node {board : Board} {start : Nat} {n : Node} {emission : Emission}
    (ok : node board start n = .ok emission) :
    emission.cells.map Cell.address = List.range' start n.length := by
  match n, ok with
  | .block timestamps, ok => exact addresses_block ok
  | .loop times counter body, ok =>
    obtain ⟨control, inner, found, foundInner, cells⟩ := node_loop_eq_ok ok
    obtain ⟨_, _, _, rfl⟩ := Instruction.loopControl_eq_ok_iff.mp found
    simp only [cells, List.map_append, addresses_row, addresses_nodes foundInner,
      List.length_cons, List.length_nil, Node.length, Node.loopOverhead]
    rw [List.append_assoc, show start + 3 + Node.lengthAll body = start + (3 + Node.lengthAll body)
      from Nat.add_assoc _ _ _]
    rw [← List.append_assoc, List.range'_append_1, List.range'_append_1]
    congr 1
    omega
  | .call index, ok =>
    obtain ⟨target, instructions, _, found, cells⟩ := call_eq_ok ok
    obtain ⟨_, _, _, rfl⟩ := Instruction.callControl_eq_ok_iff.mp found
    rw [cells, addresses_row]
    rfl

/-- Emitted nodes fill their addresses one by one. -/
theorem addresses_nodes {board : Board} {start : Nat} {ns : List Node} {emission : Emission}
    (ok : nodes board start ns = .ok emission) :
    emission.cells.map Cell.address = List.range' start (Node.lengthAll ns) := by
  match ns, ok with
  | [], ok =>
    cases ok
    rfl
  | first :: rest, ok =>
    obtain ⟨head, others, foundHead, foundRest, cells⟩ := nodes_cons_eq_ok ok
    rw [cells, List.map_append, addresses_node foundHead, addresses_nodes foundRest,
      List.range'_append_1, Node.lengthAll]

end

/-- A subroutine is emitted as its body and its closing jump. -/
theorem routine_eq_ok {board : Board} {r : Routine} {range : AddressRange} {emission : Emission}
    (ok : routine board r range = .ok emission) :
    ∃ body, nodes board range.first r.body = .ok body ∧
      r.counter.toUInt8.toNat < hardwareCounters ∧
      emission.cells
        = body.cells ++ Cell.row range.last [.conditionalJump r.counter.toUInt8] := by
  simp only [routine, Except.bind_eq_ok_iff] at ok
  obtain ⟨body, found, ok⟩ := ok
  split at ok
  · cases ok
  · next closing foundClosing =>
    obtain ⟨below, rfl⟩ := Instruction.jumpOn_eq_ok_iff.mp foundClosing
    cases ok
    exact ⟨body, found, below, rfl⟩

theorem routines_cons_eq_ok {board : Board} {r : Routine} {range : AddressRange}
    {rest : List (Routine × AddressRange)} {emission : Emission}
    (ok : routines board ((r, range) :: rest) = .ok emission) :
    ∃ head others, routine board r range = .ok head ∧ routines board rest = .ok others ∧
      emission.cells = head.cells ++ others.cells := by
  simp only [routines, Except.bind_eq_ok_iff, Except.pure_eq_ok, Except.ok.injEq] at ok
  obtain ⟨head, foundHead, others, foundRest, rfl⟩ := ok
  exact ⟨head, others, foundHead, foundRest, rfl⟩

/-- Emitted subroutines fill the addresses of their ranges one by one. -/
theorem addresses_routines {board : Board} {placed : List (Routine × AddressRange)}
    {emission : Emission} (ok : routines board placed = .ok emission)
    (length : ∀ pair ∈ placed, pair.2.last = pair.2.first + Node.lengthAll pair.1.body) :
    emission.cells.map Cell.address = placed.flatMap fun pair => pair.2.addresses := by
  induction placed generalizing emission with
  | nil =>
    cases ok
    rfl
  | cons pair rest ih =>
    obtain ⟨head, others, foundHead, foundRest, cells⟩ := routines_cons_eq_ok ok
    obtain ⟨body, foundBody, _, headCells⟩ := routine_eq_ok foundHead
    have last := length pair List.mem_cons_self
    rw [cells, List.map_append, List.flatMap_cons,
      ih foundRest fun other present => length other (List.mem_cons_of_mem _ present), headCells,
      List.map_append, addresses_nodes foundBody, addresses_row, last, List.range'_append_1,
      AddressRange.addresses, AddressRange.size, last]
    congr 2
    simp

/-! ## The memory check -/

/-- An address is marked as taken. -/
def marked (taken : Array Bool) (address : Nat) : Bool :=
  taken.getD address false

theorem marked_set {taken : Array Bool} {address : Nat} (inside : address < taken.size)
    (other : Nat) :
    marked (taken.set address true inside) other
      = (decide (other = address) || marked taken other) := by
  simp only [marked, Array.getD_eq_getD_getElem?, Array.getElem?_set]
  by_cases same : address = other
  · simp [same]
  · simp [same, Ne.symm same]

theorem occupy_eq_ok_iff {taken result : Array Bool} {address : Nat} :
    occupy taken address = .ok result ↔
      ∃ inside : address < taken.size, marked taken address = false ∧
        result = taken.set address true inside := by
  unfold occupy
  split
  · next inside =>
    have entry : marked taken address = taken[address] := by
      simp [marked, Array.getD_eq_getD_getElem?, inside]
    rw [entry]
    split
    · next full => simp [full]
    · next free =>
      simp only [Except.ok.injEq, free, inside, exists_true_left, true_and]
      exact eq_comm
  · next outside => simp [outside]

/-- Occupying addresses one by one succeeds if they are distinct, inside and free, and marks exactly
those. -/
theorem foldlM_occupy {addresses : List Nat} {taken : Array Bool} :
    (∀ result, addresses.foldlM occupy taken = .ok result →
      addresses.Nodup ∧ (∀ address ∈ addresses, address < taken.size ∧
        marked taken address = false) ∧
      ∀ address, marked result address = (decide (address ∈ addresses) || marked taken address)) ∧
    (addresses.Nodup → (∀ address ∈ addresses, address < taken.size ∧
      marked taken address = false) → ∃ result, addresses.foldlM occupy taken = .ok result) := by
  induction addresses generalizing taken with
  | nil =>
    refine ⟨fun result ok => ?_, fun _ _ => ⟨taken, rfl⟩⟩
    cases ok
    simp
  | cons first rest ih =>
    simp only [List.foldlM_cons]
    constructor
    · intro result ok
      obtain ⟨next, okFirst, okRest⟩ := Except.bind_eq_ok_iff.mp ok
      obtain ⟨inside, free, rfl⟩ := occupy_eq_ok_iff.mp okFirst
      obtain ⟨distinct, freeRest, marks⟩ := ih.1 result okRest
      simp only [marked_set, Array.size_set, Bool.or_eq_false_iff, decide_eq_false_iff_not]
        at freeRest
      refine ⟨List.nodup_cons.mpr ⟨fun again => (freeRest first again).2.1 rfl, distinct⟩, ?_, ?_⟩
      · intro address present
        rcases List.mem_cons.mp present with rfl | later
        · exact ⟨inside, free⟩
        · exact ⟨(freeRest address later).1, (freeRest address later).2.2⟩
      · intro address
        rw [marks, marked_set]
        simp only [List.mem_cons, Bool.decide_or]
        cases decide (address = first) <;> cases decide (address ∈ rest) <;> rfl
    · intro distinct free
      obtain ⟨notLater, distinctRest⟩ := List.nodup_cons.mp distinct
      obtain ⟨inside, freeFirst⟩ := free first List.mem_cons_self
      have freeRest : ∀ address ∈ rest, address < (taken.set first true inside).size ∧
          marked (taken.set first true inside) address = false := by
        intro address later
        have other : address ≠ first := fun same => notLater (same ▸ later)
        rw [marked_set, Array.size_set]
        simp [other, free address (List.mem_cons_of_mem _ later)]
      obtain ⟨result, ok⟩ := ih.2 distinctRest freeRest
      exact ⟨result, Except.bind_eq_ok_iff.mpr
        ⟨_, occupy_eq_ok_iff.mpr ⟨inside, freeFirst, rfl⟩, ok⟩⟩

/-- The addresses that a layout sets aside. -/
def reserved (layout : Layout) : List Nat :=
  List.range layout.mainLength ++ layout.ranges.flatMap AddressRange.addresses

theorem marked_replicate (size address : Nat) :
    marked (Array.replicate size false) address = false := by
  simp only [marked, Array.getD_eq_getD_getElem?, Array.getElem?_replicate]
  split <;> rfl

/-- In a free memory exactly the addresses that are occupied are marked. -/
theorem foldlM_occupy_free {addresses : List Nat} {top : Nat} :
    (∀ taken, addresses.foldlM occupy (Array.replicate (top + 1) false) = .ok taken →
      addresses.Nodup ∧ (∀ address ∈ addresses, address ≤ top) ∧
      ∀ address, marked taken address = decide (address ∈ addresses)) ∧
    (addresses.Nodup → (∀ address ∈ addresses, address ≤ top) →
      ∃ taken, addresses.foldlM occupy (Array.replicate (top + 1) false) = .ok taken) := by
  have spec := @foldlM_occupy addresses (Array.replicate (top + 1) false)
  simp only [marked_replicate, Array.size_replicate, and_true, Bool.or_false, Nat.lt_succ_iff]
    at spec
  exact spec

/-- No reserved address is found empty if all of them are marked. -/
theorem find?_reserved {layout : Layout} {taken : Array Bool} {addresses : List Nat}
    (marks : ∀ address, marked taken address = decide (address ∈ addresses)) :
    (reserved layout).find? (fun address => !taken.getD address false) = none ↔
      ∀ address ∈ reserved layout, address ∈ addresses := by
  rw [List.find?_eq_none]
  refine forall₂_congr fun address _ => ?_
  show ¬ (!marked taken address) = true ↔ _
  simp [marks]

/-- The memory check passes exactly if no address occurs twice, all are inside, and every reserved
address occurs. -/
theorem checkMemory_ok_iff {top : Nat} {layout : Layout} {cells : List Cell} :
    checkMemory top layout cells = .ok () ↔
      (cells.map Cell.address).Nodup ∧ (∀ cell ∈ cells, cell.address ≤ top) ∧
      ∀ address ∈ reserved layout, address ∈ cells.map Cell.address := by
  have fold : cells.foldlM (fun taken cell => occupy taken cell.address)
      (Array.replicate (top + 1) false)
      = (cells.map Cell.address).foldlM occupy (Array.replicate (top + 1) false) := by
    rw [List.foldlM_map]
  obtain ⟨only, total⟩ := @foldlM_occupy_free (cells.map Cell.address) top
  rw [List.forall_mem_map] at total
  simp only [checkMemory, fold]
  constructor
  · intro ok
    obtain ⟨taken, okFold, ok⟩ := Except.bind_eq_ok_iff.mp ok
    obtain ⟨distinct, inside, marks⟩ := only taken okFold
    refine ⟨distinct, List.forall_mem_map.mp inside, ?_⟩
    rw [← find?_reserved marks]
    split at ok
    · cases ok
    · next none => exact none
  · rintro ⟨distinct, inside, complete⟩
    obtain ⟨taken, okFold⟩ := total distinct inside
    obtain ⟨_, _, marks⟩ := only taken okFold
    refine Except.bind_eq_ok_iff.mpr ⟨taken, okFold, ?_⟩
    have none := (find?_reserved marks).mpr complete
    unfold reserved at none
    simp only [none]
    rfl

/-- Among emitted subroutines every one has its emission. -/
theorem routine_of_mem {board : Board} {placed : List (Routine × AddressRange)}
    {emission : Emission} (ok : routines board placed = .ok emission) {r : Routine}
    {range : AddressRange} (present : (r, range) ∈ placed) :
    ∃ part, routine board r range = .ok part ∧ part.cells ⊆ emission.cells := by
  induction placed generalizing emission with
  | nil => cases present
  | cons pair rest ih =>
    obtain ⟨head, others, foundHead, foundRest, cells⟩ := routines_cons_eq_ok ok
    rw [cells]
    rcases List.mem_cons.mp present with same | later
    · subst same
      exact ⟨head, foundHead, List.subset_append_left _ _⟩
    · obtain ⟨part, found, subset⟩ := ih foundRest later
      exact ⟨part, found, List.subset_append_of_subset_right _ subset⟩

end Emission

namespace ProgramGraph

/-! ## Programs in memory -/

/-- The main program lies below all subroutines, and the address after it is free. -/
theorem layout_eq_ok {graph : ProgramGraph} {top : Nat} {layout : Layout}
    (ok : graph.layout top = .ok layout) :
    layout.mainLength = Node.lengthAll graph.main ∧
    ∃ lowest, Placed top graph.routines layout.ranges lowest ∧ layout.mainLength < lowest := by
  simp only [ProgramGraph.layout, Except.bind_eq_ok_iff] at ok
  obtain ⟨⟨ranges, lowest⟩, found, ok⟩ := ok
  simp only at ok
  split at ok
  · next below =>
    cases ok
    exact ⟨rfl, lowest, placeRoutines_spec found, below⟩
  · cases ok

/-- The board of a graph with a layout. -/
def board (graph : ProgramGraph) (layout : Layout) (rf : Nat) : Emission.Board :=
  ⟨rf, (graph.routines.zip layout.ranges).map
    fun (routine, range) => ⟨range.first, routine.counter⟩⟩

/-- What an emitted program consists of. -/
structure Emitted (graph : ProgramGraph) (layout : Layout) (rf top : Nat) (program : Program)
    (main routines : Emission) : Prop where
  emittedMain : Emission.nodes (graph.board layout rf) 0 graph.main = .ok main
  emittedRoutines : Emission.routines (graph.board layout rf) (graph.routines.zip layout.ranges)
    = .ok routines
  memory : Emission.checkMemory top layout (main.cells ++ routines.cells) = .ok ()
  program : program = .ofWords ((main.cells ++ routines.cells).flatMap Cell.words) layout

theorem emit_eq_ok {graph : ProgramGraph} {layout : Layout} {rf top : Nat} {program : Program}
    {events : List LogEvent} (ok : graph.emit layout rf top = .ok (program, events)) :
    ∃ main routines, Emitted graph layout rf top program main routines := by
  simp only [emit, Except.bind_eq_ok_iff] at ok
  obtain ⟨main, foundMain, routines, foundRoutines, ok⟩ := ok
  split at ok
  · cases ok
  · next memory =>
    cases ok
    exact ⟨main, routines, foundMain, foundRoutines, memory, rfl⟩

theorem Emitted.emit_eq {graph : ProgramGraph} {layout : Layout} {rf top : Nat} {program : Program}
    {main routines : Emission} (emitted : Emitted graph layout rf top program main routines) :
    graph.emit layout rf top = .ok (program, (main ++ routines).events) := by
  have memory : Emission.checkMemory top layout (main ++ routines).cells = .ok () := emitted.memory
  rw [emit]
  dsimp only
  rw [show (⟨rf, _⟩ : Emission.Board) = graph.board layout rf from rfl, emitted.emittedMain,
    Except.ok_bind, emitted.emittedRoutines, Except.ok_bind, memory, emitted.program]
  rfl

/-- Emitted cells fill the reserved addresses of the layout in order. -/
theorem addresses_eq_reserved {graph : ProgramGraph} {layout : Layout} {top : Nat}
    {board : Emission.Board} {main routines : Emission} (laid : graph.layout top = .ok layout)
    (emittedMain : Emission.nodes board 0 graph.main = .ok main)
    (emittedRoutines : Emission.routines board (graph.routines.zip layout.ranges) = .ok routines) :
    (main.cells ++ routines.cells).map Cell.address = Emission.reserved layout := by
  obtain ⟨length, lowest, placed, _⟩ := layout_eq_ok laid
  have ranges : ((graph.routines.zip layout.ranges).map Prod.snd).flatMap AddressRange.addresses
      = (graph.routines.zip layout.ranges).flatMap fun pair => pair.2.addresses :=
    List.flatMap_map ..
  rw [List.map_snd_zip (Nat.le_of_eq placed.length_eq)] at ranges
  rw [List.map_append, Emission.addresses_nodes emittedMain, ← length,
    Emission.addresses_routines emittedRoutines
      fun pair inPlaced => (placed.range_of_mem inPlaced).2.1,
    Emission.reserved, List.range_eq_range', ranges]

/-- The memory check of emitted cells passes. -/
theorem checkMemory_of_layout {graph : ProgramGraph} {layout : Layout} {top : Nat}
    {board : Emission.Board} {main routines : Emission} (laid : graph.layout top = .ok layout)
    (emittedMain : Emission.nodes board 0 graph.main = .ok main)
    (emittedRoutines : Emission.routines board (graph.routines.zip layout.ranges) = .ok routines) :
    Emission.checkMemory top layout (main.cells ++ routines.cells) = .ok () := by
  obtain ⟨length, lowest, placed, below⟩ := layout_eq_ok laid
  obtain ⟨distinct, between⟩ := placed.nodup
  have lowestLe := placed.lowest_le
  have addresses := addresses_eq_reserved laid emittedMain emittedRoutines
  refine Emission.checkMemory_ok_iff.mpr ⟨?_, fun cell present => ?_, fun address reserved => ?_⟩
  · rw [addresses, Emission.reserved]
    refine List.nodup_append.mpr ⟨List.nodup_range, distinct, ?_⟩
    intro address inMain other inRoutines same
    have := List.mem_range.mp inMain
    have := between other inRoutines
    omega
  · have address := List.mem_map_of_mem (f := Cell.address) present
    rw [addresses, Emission.reserved, List.mem_append] at address
    rcases address with inMain | inRoutines
    · have := List.mem_range.mp inMain
      omega
    · have := between cell.address inRoutines
      omega
  · rw [addresses]
    exact reserved

/-- In the memory of an emitted program every cell is found at its address, and none at the end of
the main program. -/
theorem Emitted.instructionsAt {graph : ProgramGraph} {layout : Layout} {rf top : Nat}
    {program : Program} {main routines : Emission}
    (emitted : Emitted graph layout rf top program main routines)
    (laid : graph.layout top = .ok layout) (small : top < UInt16.size) :
    ∀ cell ∈ main.cells ++ routines.cells, cell.address < UInt16.size ∧
      cell.address ≠ program.mainLength ∧
      program.instructionsAt cell.address.toUInt16 = cell.instructions := by
  obtain ⟨length, lowest, placed, below⟩ := layout_eq_ok laid
  obtain ⟨distinct, inside, _⟩ := Emission.checkMemory_ok_iff.mp emitted.memory
  rw [emitted.program]
  have inside : ∀ cell ∈ main.cells ++ routines.cells, cell.address < UInt16.size :=
    fun cell present => Nat.lt_of_le_of_lt (inside cell present) small
  intro cell present
  refine ⟨inside cell present, ?_, Program.instructionsAt_cells layout distinct inside present⟩
  show cell.address ≠ layout.mainLength
  rcases List.mem_append.mp present with inMain | inRoutines
  · have address := List.mem_map_of_mem (f := Cell.address) inMain
    rw [Emission.addresses_nodes emitted.emittedMain, List.mem_range'_1] at address
    omega
  · have address := List.mem_map_of_mem (f := Cell.address) inRoutines
    rw [Emission.addresses_routines emitted.emittedRoutines
      fun pair inPlaced => (placed.range_of_mem inPlaced).2.1] at address
    obtain ⟨pair, inPlaced, inRange⟩ := List.mem_flatMap.mp address
    obtain ⟨first, last, _⟩ := placed.range_of_mem inPlaced
    have := (Placed.addresses_eq pair.2 (by omega) cell.address).mp inRange
    omega

end ProgramGraph

end PulseSequencer

import PulseSequencer.Proofs.Program.Placement

/-!
# Instructions stored with a stack

The same program without recursion. The nodes wait on a stack, and the addresses of each are read
from its place. A loop stores its closing jump before its body, so the instructions come in another
order than their addresses, and every address is marked when it is stored.

Stores to different addresses may change places. A program is sorted by address in the end, so it is
the program of the recursive emission.

Results:
1. `walk_row`: the nodes of a row store the cells of their emission in some order, whatever else is
   waiting.
2. `ofWords_perm`: the order of cells at different addresses does not matter to a program.
3. `emit_eq`: the program and the messages are those of `ProgramGraph.emit`.
-/

namespace PulseSequencer

namespace Storage

/-! ## The stack -/

/-- The words that are stored, the marks of their addresses, and the messages. -/
structure State where
  words : List ProgramWord
  taken : Array Bool
  events : List LogEvent

/-- Stores the instructions of one address and marks it. -/
def store (state : State) (cell : Cell) : Except PassFailure State :=
  if UInt16.size ≤ cell.address then .error .outOfBounds
  else
    match Emission.occupy state.taken cell.address with
    | .error fault => .error (.reported (.internal fault))
    | .ok taken => .ok { state with words := state.words ++ cell.words, taken }

def storeAll (state : State) (cells : List Cell) : Except PassFailure State :=
  cells.foldlM store state

def log (state : State) (events : List LogEvent) : State :=
  { state with events := state.events ++ events }

/-- Stores a timestamp at an address. -/
def play (board : Emission.Board) (state : State) (t : Timestamp) (address : Nat) :
    Except PassFailure State := do
  let (cell, event) ← (Emission.timestamp board t address).mapError .reported
  store (log state event.toList) cell

/-- Stores the instructions of a node with these addresses, without the body of a loop. -/
def visit (board : Emission.Board) (span : AddressRange) (state : State) :
    Node → Except PassFailure State
  | .block timestamps =>
    (timestamps.zipIdx span.first).foldlM (fun state (t, address) => play board state t address)
      state
  | .loop times counter body =>
    match Instruction.loopControl span.first (Node.lengthAll body) times counter.toUInt8 with
    | .error error => .error (.reported (.instruction error))
    | .ok control => do
      let state ← storeAll state (Cell.row span.first control.preamble)
      store state ⟨span.last, [control.closing]⟩
  | .call routine =>
    match board.targets[routine]? with
    | none => .error (.reported (.internal (.unknownRoutine routine)))
    | some target =>
      match Instruction.callControl span.first target.address target.counter.toUInt8 with
      | .error error => .error (.reported (.instruction error))
      | .ok instructions => storeAll state (Cell.row span.first instructions)

/-- Visits nodes until none waits. -/
def walk (board : Emission.Board) (spans : Placement.Spans) :
    List Located → State → Except PassFailure State
  | [], state => .ok state
  | located :: waiting, state => do
    let state ← visit board (spans located.place) state located.node
    walk board spans (located.inside ++ waiting) state
termination_by waiting => Node.sizeAll (waiting.map Located.node)
decreasing_by exact located.sizeAll_inside waiting

/-- Stores a subroutine and its closing jump. -/
def storeRoutine (board : Emission.Board) (state : State)
    (placed : (Routine × AddressRange) × Placement.Spans) : Except PassFailure State := do
  let ((routine, range), spans) := placed
  let state ← walk board spans (Node.locate [] 0 routine.body) state
  match Instruction.jumpOn routine.counter.toUInt8 with
  | .error error => throw (.reported (.instruction error))
  | .ok closing => store state ⟨range.last, [closing]⟩

/-- The program of a graph whose nodes have addresses, in a memory up to `top`. Every address of the
layout has to be marked in the end. -/
def emit (graph : ProgramGraph) (placed : Placement.Placed) (rf top : Nat) :
    Except PassFailure (Program × List LogEvent) := do
  let board := graph.board placed.layout rf
  let state ← walk board placed.main (Node.locate [] 0 graph.main)
    ⟨[], Array.replicate (top + 1) false, []⟩
  let state ← ((graph.routines.zip placed.layout.ranges).zip placed.routines).foldlM
    (storeRoutine board) state
  match (Emission.reserved placed.layout).find? fun address => !state.taken.getD address false with
  | some address => throw (.reported (.internal (.addressEmpty address)))
  | none => return (.ofWords state.words placed.layout, state.events)

/-! ## Stored cells -/

/-- Stores the cells of an emission and logs its messages. -/
def put (state : State) (emission : Emission) : Except PassFailure State :=
  (storeAll state emission.cells).map (log · emission.events)

@[simp] theorem log_nil (state : State) : log state [] = state := by
  simp [log]

@[simp] theorem log_log (state : State) (first second : List LogEvent) :
    log (log state first) second = log state (first ++ second) := by
  simp [log]

theorem store_log (state : State) (events : List LogEvent) (cell : Cell) :
    store (log state events) cell = (store state cell).map (log · events) := by
  unfold store log
  dsimp only
  split
  · rfl
  · split <;> rfl

theorem storeAll_log (state : State) (events : List LogEvent) (cells : List Cell) :
    storeAll (log state events) cells = (storeAll state cells).map (log · events) := by
  induction cells generalizing state with
  | nil => rfl
  | cons cell rest ih =>
    rw [storeAll, storeAll, List.foldlM_cons, List.foldlM_cons, store_log]
    cases store state cell with
    | error failure => rfl
    | ok next => exact ih next

theorem storeAll_append (state : State) (first second : List Cell) :
    storeAll state (first ++ second) = storeAll state first >>= (storeAll · second) := by
  rw [storeAll, List.foldlM_append]
  rfl

theorem storeAll_singleton (state : State) (cell : Cell) :
    storeAll state [cell] = store state cell := by
  rw [storeAll, List.foldlM_cons]
  cases store state cell <;> rfl

theorem put_cells (state : State) (cells : List Cell) :
    put state ⟨cells, []⟩ = storeAll state cells := by
  rw [put]
  cases storeAll state cells <;> simp [Except.map]

theorem put_empty (state : State) : put state .empty = .ok state :=
  put_cells state []

/-- Messages and cells do not disturb one another. -/
theorem put_append (state : State) (first second : Emission) :
    put state (first ++ second) = put state first >>= (put · second) := by
  rw [put, Emission.cells_append, storeAll_append, put]
  cases storeAll state first.cells with
  | error failure => rfl
  | ok next =>
    show (storeAll next second.cells).map (log · (first.events ++ second.events))
      = (storeAll (log next first.events) second.cells).map (log · second.events)
    rw [storeAll_log]
    cases storeAll next second.cells <;> simp [Except.map]

/-! ## Nodes -/

section

variable {board : Emission.Board} {spans : Placement.Spans}

theorem play_eq {t : Timestamp} {address : Nat} {played : Cell × Option LogEvent}
    (ok : Emission.timestamp board t address = .ok played) (state : State) :
    play board state t address = put state ⟨[played.1], played.2.toList⟩ := by
  rw [play, ok, put, storeAll_singleton]
  exact store_log state played.2.toList played.1

/-- The timestamps of a block are stored as they are emitted. -/
theorem foldlM_play {pairs : List (Timestamp × Nat)} {played : List (Cell × Option LogEvent)}
    (ok : pairs.mapM (fun (t, address) => Emission.timestamp board t address) = .ok played)
    (state : State) :
    pairs.foldlM (fun state (t, address) => play board state t address) state
      = put state ⟨played.map Prod.fst, played.filterMap Prod.snd⟩ := by
  induction pairs generalizing played state with
  | nil =>
    cases ok
    exact (put_empty state).symm
  | cons pair rest ih =>
    simp only [List.mapM_cons, Except.bind_eq_ok_iff, Except.pure_eq_ok, Except.ok.injEq] at ok
    obtain ⟨first, okFirst, others, okRest, rfl⟩ := ok
    have parts : (⟨(first :: others).map Prod.fst, (first :: others).filterMap Prod.snd⟩ : Emission)
        = ⟨[first.1], first.2.toList⟩ ++ ⟨others.map Prod.fst, others.filterMap Prod.snd⟩ := by
      obtain ⟨cell, event⟩ := first
      cases event <;> rfl
    rw [parts, put_append, List.foldlM_cons, ← play_eq okFirst]
    exact bind_congr (ih okRest)

theorem visit_block {timestamps : List Timestamp} {first last : Nat} {emission : Emission}
    (ok : Emission.block board first timestamps = .ok emission) (state : State) :
    visit board ⟨first, last⟩ state (.block timestamps) = put state emission := by
  obtain ⟨played, found, isEmission⟩ := Except.bind_eq_ok_iff.mp ok
  cases isEmission
  exact foldlM_play found state

theorem visit_call {routine first last : Nat} {emission : Emission}
    (ok : Emission.call board first routine = .ok emission) (state : State) :
    visit board ⟨first, last⟩ state (.call routine) = put state emission := by
  unfold Emission.call at ok
  split at ok
  · cases ok
  next target found =>
  split at ok
  · cases ok
  next instructions control =>
  cases ok
  rw [visit, found]
  dsimp only
  rw [control, put_cells]

theorem visit_loop {times : UInt32} {counter first last : Nat} {body : List Node}
    {control : Instruction.LoopControl}
    (found : Instruction.loopControl first (Node.lengthAll body) times counter.toUInt8
      = .ok control) (state : State) :
    visit board ⟨first, last⟩ state (.loop times counter body)
      = put state ⟨Cell.row first control.preamble ++ Cell.row last [control.closing], []⟩ := by
  rw [visit, found, put_cells, storeAll_append]
  exact bind_congr fun next => (storeAll_singleton next _).symm

mutual

/-- A node is stored with the cells of its emission, the closing jump of a loop before its body. -/
theorem walk_node {node : Node} {place : Place} {start : Nat} {emission : Emission}
    (emitted : Emission.node board start node = .ok emission)
    (holds : ∀ pair ∈ node.placedSpans place start, spans pair.1 = pair.2)
    (waiting : List Located) :
    ∃ cells, cells.Perm emission.cells ∧ ∀ state,
      walk board spans (⟨place, node⟩ :: waiting) state
        = put state ⟨cells, emission.events⟩ >>= walk board spans waiting := by
  match node, emitted, holds with
  | .block timestamps, emitted, holds =>
    have span := holds _ (List.mem_singleton_self _)
    rw [Emission.node] at emitted
    refine ⟨_, .refl _, fun state => ?_⟩
    rw [walk, span, visit_block emitted]
    rfl
  | .call routine, emitted, holds =>
    have span := holds _ (List.mem_singleton_self _)
    rw [Emission.node] at emitted
    refine ⟨_, .refl _, fun state => ?_⟩
    rw [walk, span, visit_call emitted]
    rfl
  | .loop times counter body, emitted, holds =>
    have span := holds _ List.mem_cons_self
    obtain ⟨inner, okInner, ok⟩ := Except.bind_eq_ok_iff.mp emitted
    unfold Emission.loop at ok
    split at ok
    · cases ok
    next control found =>
    cases ok
    have last : start + (Node.lengthAll body + Node.loopOverhead) - 1
        = start + 3 + Node.lengthAll body := by
      rw [Node.loopOverhead]
      omega
    obtain ⟨cells, same, walked⟩ := walk_row okInner
      (fun pair present => holds pair (List.mem_cons_of_mem _ present)) waiting
    -- The jump is stored before the body and emitted after it.
    have order : ∀ preamble closing : List Cell,
        (preamble ++ closing ++ cells).Perm (preamble ++ inner.cells ++ closing) := by
      intro preamble closing
      rw [List.append_assoc, List.append_assoc]
      exact .append_left _ (List.perm_append_comm.trans (same.append_right _))
    refine ⟨_, order _ _, fun state => ?_⟩
    have events : [] ++ inner.events ++ [] = [] ++ inner.events := List.append_nil _
    rw [walk, span, visit_loop found, last]
    refine (bind_congr walked).trans ?_
    show _ = put state ⟨_, [] ++ inner.events ++ []⟩ >>= _
    rw [events, ← bind_assoc, ← put_append]
    rfl

/-- Nodes in a row are stored one after the other, whatever else is waiting. -/
theorem walk_row {nodes : List Node} {around : Place} {index start : Nat} {emission : Emission}
    (emitted : Emission.nodes board start nodes = .ok emission)
    (holds : ∀ pair ∈ Node.placedSpansAll around index start nodes, spans pair.1 = pair.2)
    (waiting : List Located) :
    ∃ cells, cells.Perm emission.cells ∧ ∀ state,
      walk board spans (Node.locate around index nodes ++ waiting) state
        = put state ⟨cells, emission.events⟩ >>= walk board spans waiting := by
  match nodes, emitted, holds with
  | [], emitted, _ =>
    cases emitted
    refine ⟨[], .refl _, fun state => ?_⟩
    rw [show (⟨[], Emission.empty.events⟩ : Emission) = .empty from rfl, put_empty]
    rfl
  | node :: rest, emitted, holds =>
    simp only [Emission.nodes, Except.bind_eq_ok_iff, Except.pure_eq_ok, Except.ok.injEq] at emitted
    obtain ⟨head, okHead, others, okOthers, rfl⟩ := emitted
    obtain ⟨first, sameFirst, walkedFirst⟩ := walk_node okHead
      (fun pair present => holds pair (List.mem_append_left _ present))
      (Node.locate around (index + 1) rest ++ waiting)
    obtain ⟨later, sameLater, walkedLater⟩ := walk_row okOthers
      (fun pair present => holds pair (List.mem_append_right _ present)) waiting
    refine ⟨first ++ later, sameFirst.append sameLater, fun state => ?_⟩
    have parts : (⟨first ++ later, (head ++ others).events⟩ : Emission)
        = ⟨first, head.events⟩ ++ ⟨later, others.events⟩ := rfl
    rw [parts, put_append, bind_assoc]
    exact (walkedFirst state).trans (bind_congr walkedLater)

end

/-- A subroutine is stored with its closing jump last. -/
theorem storeRoutine_eq {placed : Routine × AddressRange} {emission : Emission}
    (emitted : Emission.routine board placed.1 placed.2 = .ok emission)
    (holds : Placement.BodyHolds placed spans) :
    ∃ cells, cells.Perm emission.cells ∧ ∀ state,
      storeRoutine board state (placed, spans) = put state ⟨cells, emission.events⟩ := by
  obtain ⟨body, okBody, ok⟩ := Except.bind_eq_ok_iff.mp emitted
  split at ok
  · cases ok
  next closing found =>
  cases ok
  obtain ⟨cells, same, walked⟩ := walk_row okBody holds []
  refine ⟨cells ++ Cell.row placed.2.last [closing], same.append_right _, fun state => ?_⟩
  have parts : (⟨cells ++ Cell.row placed.2.last [closing], body.events ++ []⟩ : Emission)
      = ⟨cells, body.events⟩ ++ ⟨Cell.row placed.2.last [closing], []⟩ := rfl
  show _ = put state ⟨_, body.events ++ []⟩
  rw [parts, put_append, storeRoutine, found, ← List.append_nil (Node.locate _ _ _), walked,
    bind_assoc]
  refine bind_congr fun next => ?_
  rw [walk, put_cells, Cell.row]
  exact (storeAll_singleton next _).symm

/-- All subroutines are stored. -/
theorem foldlM_storeRoutine {placed : List (Routine × AddressRange)}
    {inRoutines : List Placement.Spans} {emission : Emission}
    (emitted : Emission.routines board placed = .ok emission)
    (holds : List.Forall₂ Placement.BodyHolds placed inRoutines) :
    ∃ cells, cells.Perm emission.cells ∧ ∀ state,
      (placed.zip inRoutines).foldlM (storeRoutine board) state
        = put state ⟨cells, emission.events⟩ := by
  induction holds generalizing emission with
  | nil =>
    cases emitted
    exact ⟨[], .refl _, fun state => (put_empty state).symm⟩
  | cons holdsFirst holdsRest ih =>
    simp only [Emission.routines, Except.bind_eq_ok_iff, Except.pure_eq_ok, Except.ok.injEq]
      at emitted
    obtain ⟨head, okHead, others, okOthers, rfl⟩ := emitted
    obtain ⟨first, sameFirst, storedFirst⟩ := storeRoutine_eq okHead holdsFirst
    obtain ⟨later, sameLater, storedLater⟩ := ih okOthers
    refine ⟨first ++ later, sameFirst.append sameLater, fun state => ?_⟩
    have parts : (⟨first ++ later, (head ++ others).events⟩ : Emission)
        = ⟨first, head.events⟩ ++ ⟨later, others.events⟩ := rfl
    rw [parts, put_append, List.zip_cons_cons, List.foldlM_cons, storedFirst]
    exact bind_congr storedLater

end

/-! ## The memory in the end -/

/-- Cells are stored where their addresses are inside and can be marked. -/
theorem storeAll_eq_ok {cells : List Cell} {state : State} {taken : Array Bool}
    (inside : ∀ cell ∈ cells, cell.address < UInt16.size)
    (marked : (cells.map Cell.address).foldlM Emission.occupy state.taken = .ok taken) :
    storeAll state cells
      = .ok { state with words := state.words ++ cells.flatMap Cell.words, taken } := by
  induction cells generalizing state with
  | nil =>
    cases marked
    simp [storeAll]
  | cons cell rest ih =>
    obtain ⟨insideFirst, insideRest⟩ := List.forall_mem_cons.mp inside
    obtain ⟨next, occupied, markedRest⟩ := Except.bind_eq_ok_iff.mp marked
    have stored : store state cell
        = .ok { state with words := state.words ++ cell.words, taken := next } := by
      rw [store, if_neg (Nat.not_le.mpr insideFirst), occupied]
    rw [storeAll, List.foldlM_cons, stored]
    refine (ih insideRest markedRest).trans ?_
    rw [List.flatMap_cons, List.append_assoc]

/-- The order of cells at different addresses does not matter to the words of one address. -/
theorem filter_flatMap_perm {cells other : List Cell} (same : cells.Perm other)
    (distinct : (cells.map fun cell => cell.address.toUInt16).Nodup) (address : UInt16) :
    (cells.flatMap Cell.words).filter (fun word => word.address = address)
      = (other.flatMap Cell.words).filter fun word => word.address = address := by
  induction same with
  | nil => rfl
  | cons cell _ ih =>
    simp only [List.flatMap_cons, List.filter_append, ih (List.nodup_cons.mp distinct).2]
  | swap first second rest =>
    have different : second.address.toUInt16 ≠ first.address.toUInt16 := by
      simp only [List.map_cons, List.nodup_cons, List.mem_cons, not_or] at distinct
      exact distinct.1.1
    simp only [List.flatMap_cons, List.filter_append, Program.filter_words]
    by_cases atFirst : first.address.toUInt16 = address
    · have notAtSecond : second.address.toUInt16 ≠ address := atFirst ▸ different
      rw [if_neg notAtSecond, List.nil_append, List.nil_append]
    · rw [if_neg atFirst, List.nil_append, List.nil_append]
  | trans first _ ihFirst ihSecond =>
    exact (ihFirst distinct).trans (ihSecond ((first.map _).nodup_iff.mp distinct))

/-- A program is the same for every order of its cells. -/
theorem ofWords_perm {cells other : List Cell} (same : cells.Perm other)
    (distinct : (cells.map Cell.address).Nodup)
    (inside : ∀ cell ∈ cells, cell.address < UInt16.size) (layout : Layout) :
    Program.ofWords (cells.flatMap Cell.words) layout
      = .ofWords (other.flatMap Cell.words) layout := by
  have distinctWords : (cells.map fun cell => cell.address.toUInt16).Nodup := by
    have injective : ∀ a ∈ cells.map Cell.address, ∀ b ∈ cells.map Cell.address,
        a.toUInt16 = b.toUInt16 → a = b := by
      simp only [List.forall_mem_map]
      intro cell present other presentOther
      exact Program.eq_of_toUInt16_eq (inside cell present) (inside other presentOther)
    have mapped := distinct.map_on injective
    rwa [List.map_map] at mapped
  have sorted := Program.stableSort_ofWords (cells.flatMap Cell.words) layout
  have sortedOther := Program.stableSort_ofWords (other.flatMap Cell.words) layout
  have words : (Program.ofWords (cells.flatMap Cell.words) layout).words
      = (Program.ofWords (other.flatMap Cell.words) layout).words := by
    refine Program.eq_of_filter_eq (fun address => ?_) sorted.ascending sortedOther.ascending
    rw [sorted.stable, sortedOther.stable]
    exact filter_flatMap_perm same distinctWords address
  rw [Program.ofWords, Program.ofWords]
  exact congrArg (fun words => (⟨words, layout.mainLength, layout.ranges⟩ : Program)) words

/-- Storing the nodes of a graph one by one, at the addresses that were written to them, makes the
program that is emitted. -/
theorem emit_eq {graph : ProgramGraph} {layout : Layout} {rf top : Nat} {program : Program}
    {events : List LogEvent} {inMain : Placement.Spans} {inRoutines : List Placement.Spans}
    (emitted : graph.emit layout rf top = .ok (program, events)) (small : top < UInt16.size)
    (holdsMain : inMain.Hold 0 graph.main)
    (holdsRoutines : List.Forall₂ Placement.BodyHolds (graph.routines.zip layout.ranges)
      inRoutines) :
    emit graph ⟨layout, inMain, inRoutines⟩ rf top = .ok (program, events) := by
  obtain ⟨main, routines, parts⟩ := ProgramGraph.emit_eq_ok emitted
  cases emitted.symm.trans parts.emit_eq
  obtain ⟨first, sameFirst, walked⟩ := walk_row parts.emittedMain holdsMain []
  obtain ⟨later, sameLater, stored⟩ := foldlM_storeRoutine parts.emittedRoutines holdsRoutines
  have same : (first ++ later).Perm (main.cells ++ routines.cells) := sameFirst.append sameLater
  obtain ⟨distinct, within, complete⟩ := Emission.checkMemory_ok_iff.mp parts.memory
  rw [← (same.map Cell.address).nodup_iff] at distinct
  have within : ∀ cell ∈ first ++ later, cell.address ≤ top :=
    fun cell present => within cell (same.mem_iff.mp present)
  have inside : ∀ cell ∈ first ++ later, cell.address < UInt16.size :=
    fun cell present => Nat.lt_of_le_of_lt (within cell present) small
  have complete : ∀ address ∈ Emission.reserved layout,
      address ∈ (first ++ later).map Cell.address :=
    fun address reserved => (same.map Cell.address).mem_iff.mpr (complete address reserved)
  obtain ⟨only, total⟩ := @Emission.foldlM_occupy_free ((first ++ later).map Cell.address) top
  obtain ⟨taken, marked⟩ := total distinct (List.forall_mem_map.mpr within)
  obtain ⟨_, _, marks⟩ := only taken marked
  have all := calc
    walk (graph.board layout rf) inMain (Node.locate [] 0 graph.main)
        ⟨[], Array.replicate (top + 1) false, []⟩
      >>= ((graph.routines.zip layout.ranges).zip inRoutines).foldlM
        (storeRoutine (graph.board layout rf))
    _ = put ⟨[], Array.replicate (top + 1) false, []⟩ ⟨first, main.events⟩
        >>= (put · ⟨later, routines.events⟩) := by
      rw [← List.append_nil (Node.locate [] 0 graph.main), walked, bind_assoc]
      refine bind_congr fun state => ?_
      rw [walk]
      exact stored state
    _ = put ⟨[], Array.replicate (top + 1) false, []⟩
        ⟨first ++ later, main.events ++ routines.events⟩ := (put_append _ _ _).symm
    _ = .ok ⟨(first ++ later).flatMap Cell.words, taken, main.events ++ routines.events⟩ := by
      rw [put, storeAll_eq_ok inside marked]
      rfl
  rw [emit]
  dsimp only
  rw [← bind_assoc, all, Except.ok_bind, (Emission.find?_reserved marks).mpr complete,
    ofWords_perm same distinct inside, parts.program]
  rfl

end Storage

end PulseSequencer

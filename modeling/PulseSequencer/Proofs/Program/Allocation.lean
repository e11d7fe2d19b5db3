import PulseSequencer.Proofs.Program.Counters
import PulseSequencer.Proofs.Program.Traversal

/-!
# Counters in two passes

The same counters without recursion into loops. A first pass enters and leaves the loops of a body
with one stack. It has a slot for every loop, in the order in which the loops are entered, and for
every open body the highest counter in it so far. A loop gets its counter when it is left, after all
loops inside of it, and is compared with the limit there. A second pass comes to the nodes again and
takes the counters from the slots, one for every loop that it meets.

Slots are filled in another order than they are read. The passes are in step because both meet the
loops in the same order, each loop before those inside of it.

Results:
1. `run_row`: the first pass fills the slots with the counters of `Node.assignAll`, or finds too
   many, whatever else is open or waiting.
2. `writeBack_row`: the second pass uses up exactly these slots, and every loop gets its own.
3. `assignCounters_eq`: so the counters are those of `ProgramGraph.assignCounters`, and the slots
   never run out.
-/

namespace PulseSequencer

namespace Allocation

/-! ## The first pass -/

inductive Visit where
  | enter (node : Node)
  /-- Comes after the body of the loop with this slot. -/
  | leave (slot : Nat)

/-- The waiting visits, the next one first, the slots, and the highest counters in the open bodies,
the innermost one first. -/
structure State where
  waiting : List Visit
  slots : List Nat
  nested : List (Option Nat)

/-- The counter of a loop or a subroutine, after the highest counter in it. -/
def enclosing (group : String) (limit : Nat) (highest : Option Nat) : Except PassFailure Nat :=
  let counter := highest.elim 0 (· + 1)
  if limit ≤ counter then .error (.reported (.tooManyCounters group limit)) else .ok counter

/-- Takes note of a counter in the innermost open body. -/
def note (counter : Nat) : List (Option Nat) → List (Option Nat)
  | highest :: outer => some (max (highest.getD 0) counter) :: outer
  | [] => []

def State.visit (group : String) (limit : Nat) (counters : List (Option Nat)) (state : State) :
    Visit → Except PassFailure State
  | .enter (.block _) => .ok state
  | .enter (.call routine) =>
    match counters[routine]? with
    | some (some counter) => .ok { state with nested := note counter state.nested }
    | _ => .error (.reported (.internal (.counterMissing routine)))
  | .enter (.loop _ _ body) =>
    .ok {
      waiting := body.map .enter ++ .leave state.slots.length :: state.waiting
      slots := state.slots ++ [0]
      nested := none :: state.nested }
  | .leave slot =>
    match enclosing group limit state.nested.head?.join with
    | .error failure => .error failure
    | .ok counter =>
      if slot < state.slots.length then
        .ok { state with
          slots := state.slots.set slot counter
          nested := note counter state.nested.tail }
      else .error .outOfBounds

def Visit.weight : Visit → Nat
  | .enter node => 2 * node.size
  | .leave _ => 1

def weight : List Visit → Nat
  | [] => 0
  | visit :: waiting => visit.weight + weight waiting

theorem weight_enterAll (nodes : List Node) (waiting : List Visit) :
    weight (nodes.map .enter ++ waiting) = 2 * Node.sizeAll nodes + weight waiting := by
  induction nodes with
  | nil => simp [Node.sizeAll]
  | cons node rest ih =>
    rw [List.map_cons, List.cons_append, weight, ih, Visit.weight, Node.sizeAll]
    omega

theorem State.weight_of_visit {group : String} {limit : Nat} {counters : List (Option Nat)}
    {state next : State} {visit : Visit}
    (visited : state.visit group limit counters visit = .ok next) :
    weight next.waiting < weight (visit :: state.waiting) := by
  match visit, visited with
  | .enter (.block timestamps), visited =>
    cases visited
    simp [weight, Visit.weight, Node.size]
  | .enter (.call routine), visited =>
    rw [State.visit] at visited
    split at visited
    · cases visited
      simp [weight, Visit.weight, Node.size]
    · cases visited
  | .enter (.loop times counter body), visited =>
    cases visited
    rw [weight_enterAll, weight, weight, Visit.weight, Visit.weight, Node.size]
    omega
  | .leave slot, visited =>
    rw [State.visit] at visited
    split at visited
    · cases visited
    · split at visited
      · cases visited
        simp [weight, Visit.weight]
      · cases visited

/-- Follows the visits until none is left. -/
def run (group : String) (limit : Nat) (counters : List (Option Nat)) :
    State → Except PassFailure State
  | ⟨[], slots, nested⟩ => .ok ⟨[], slots, nested⟩
  | ⟨visit :: waiting, slots, nested⟩ =>
    match _visited : State.visit group limit counters ⟨waiting, slots, nested⟩ visit with
    | .ok next => run group limit counters next
    | .error failure => .error failure
termination_by state => weight state.waiting
decreasing_by exact State.weight_of_visit _visited

theorem run_cons (group : String) (limit : Nat) (counters : List (Option Nat)) (visit : Visit)
    (waiting : List Visit) (slots : List Nat) (nested : List (Option Nat)) :
    run group limit counters ⟨visit :: waiting, slots, nested⟩
      = State.visit group limit counters ⟨waiting, slots, nested⟩ visit
        >>= run group limit counters := by
  rw [run]
  split
  · next visited => rw [visited]; rfl
  · next visited => rw [visited]; rfl

/-! ## The second pass -/

/-- A loop takes the next counter, if there is one. -/
def take (written : Place → Nat) (counters : List Nat) (located : Located) :
    Except PassFailure ((Place → Nat) × List Nat) :=
  match located.node, counters with
  | .loop .., counter :: rest => .ok (write written located.place counter, rest)
  | .loop .., [] => .error (.reported (.internal .countersOutOfSync))
  | _, _ => .ok (written, counters)

/-- Comes to every node before those inside of it. -/
def writeBack : List Located → List Nat → (Place → Nat) → Except PassFailure (Place → Nat)
  | [], _, written => .ok written
  | located :: waiting, counters, written => do
    let (written, counters) ← take written counters located
    writeBack (located.inside ++ waiting) counters written
termination_by waiting => Node.sizeAll (waiting.map Located.node)
decreasing_by exact located.sizeAll_inside waiting

end Allocation

namespace Node

mutual

/-- A node in which every loop has the counter that was written to its place. -/
def recount (written : Place → Nat) (place : Place) : Node → Node
  | .block timestamps => .block timestamps
  | .loop times _ body => .loop times (written place) (recountAll written place 0 body)
  | .call routine => .call routine

def recountAll (written : Place → Nat) (around : Place) (index : Nat) : List Node → List Node
  | [] => []
  | node :: rest =>
    node.recount written (index :: around) :: recountAll written around (index + 1) rest

end

end Node

namespace Allocation

/-- Nodes with their counters, and the highest counter among them. -/
def assignNodes (group : String) (limit : Nat) (counters : List (Option Nat)) (nodes : List Node) :
    Except PassFailure (List Node × Option Nat) := do
  let state ← run group limit counters ⟨nodes.map .enter, [], [none]⟩
  let written ← writeBack (Node.locate [] 0 nodes) state.slots fun _ => 0
  return (Node.recountAll written [] 0 nodes, state.nested.head?.join)

open ProgramGraph (Assignment)

def assignRoutine (group : String) (limit : Nat) (assignment : Assignment) (index : Nat) :
    Except PassFailure Assignment :=
  match assignment.routines[index]? with
  | none => .error .outOfBounds
  | some routine => do
    let (body, highest) ← assignNodes group limit assignment.counters routine.body
    let counter ← enclosing group limit highest
    if index < assignment.counters.length then
      return {
        routines := assignment.routines.set index { routine with body, counter }
        counters := assignment.counters.set index (some counter) }
    else throw .outOfBounds

/-- Counters for all subroutines, in the order of the search, and for the main program. -/
def assignCounters (graph : ProgramGraph) (group : String) (limit : Nat) :
    Except PassFailure ProgramGraph := do
  let order ← match DepthFirst.search graph with
    | some order => pure order
    | none => throw .outOfBounds
  let start : Assignment := ⟨graph.routines, graph.routines.map fun _ => none⟩
  let assignment ← order.foldlM (assignRoutine group limit) start
  let (main, _) ← assignNodes group limit assignment.counters graph.main
  return { main, routines := assignment.routines }

end Allocation

/-! ## Counters of loops -/

namespace Node

mutual

/-- The counters of the loops in a node, each before those inside of it. -/
def loopCounters : Node → List Nat
  | .block _ => []
  | .loop _ counter body => counter :: loopCountersAll body
  | .call _ => []

def loopCountersAll : List Node → List Nat
  | [] => []
  | node :: rest => node.loopCounters ++ loopCountersAll rest

end

mutual

/-- The counters of the loops in a node with the places of the loops. -/
def placedCounters (place : Place) : Node → List (Place × Nat)
  | .block _ => []
  | .loop _ counter body => (place, counter) :: placedCountersAll place 0 body
  | .call _ => []

def placedCountersAll (around : Place) (index : Nat) : List Node → List (Place × Nat)
  | [] => []
  | node :: rest =>
    node.placedCounters (index :: around) ++ placedCountersAll around (index + 1) rest

end

mutual

theorem placedCounters_sublist (place : Place) (node : Node) :
    ((node.placedCounters place).map Prod.fst).Sublist (node.places place) := by
  match node with
  | .block timestamps => exact List.nil_sublist _
  | .call routine => exact List.nil_sublist _
  | .loop times counter body => exact (placedCountersAll_sublist place 0 body).cons_cons _

theorem placedCountersAll_sublist (around : Place) (index : Nat) (nodes : List Node) :
    ((placedCountersAll around index nodes).map Prod.fst).Sublist
      (placesAll around index nodes) := by
  match nodes with
  | [] => exact List.Sublist.refl _
  | node :: rest =>
    rw [placedCountersAll, List.map_append, placesAll]
    exact (placedCounters_sublist _ node).append (placedCountersAll_sublist _ _ rest)

end

/-! ## Assigned nodes, step by step -/

section

variable {counters : List (Option Nat)}

theorem assign_loop_eq_ok {times : UInt32} {counter occupied : Nat} {body : List Node}
    {result : Node} (ok : assign counters (.loop times counter body) = .ok (result, occupied)) :
    ∃ body' inner, assignAll counters body = .ok (body', inner) ∧
      result = .loop times inner body' ∧ occupied = inner + 1 := by
  simp only [assign, Except.bind_eq_ok_iff, Except.pure_eq_ok, Except.ok.injEq,
    Prod.mk.injEq] at ok
  obtain ⟨⟨body', inner⟩, found, rfl, rfl⟩ := ok
  exact ⟨body', inner, found, rfl, rfl⟩

theorem assign_call_eq_ok {routine occupied : Nat} {result : Node}
    (ok : assign counters (.call routine) = .ok (result, occupied)) :
    ∃ counter, counters[routine]? = some (some counter) ∧ result = .call routine ∧
      occupied = counter + 1 := by
  simp only [assign] at ok
  split at ok
  · next counter found =>
    cases ok
    exact ⟨counter, found, rfl, rfl⟩
  · cases ok

theorem assignAll_cons_eq_ok {node : Node} {rest result : List Node} {occupied : Nat}
    (ok : assignAll counters (node :: rest) = .ok (result, occupied)) :
    ∃ node' rest' first others, assign counters node = .ok (node', first) ∧
      assignAll counters rest = .ok (rest', others) ∧ result = node' :: rest' ∧
      occupied = max first others := by
  simp only [assignAll, Except.bind_eq_ok_iff, Except.pure_eq_ok, Except.ok.injEq,
    Prod.mk.injEq] at ok
  obtain ⟨⟨node', first⟩, found, ⟨rest', others⟩, foundRest, rfl, rfl⟩ := ok
  exact ⟨node', rest', first, others, found, foundRest, rfl, rfl⟩

end

end Node

namespace Allocation

/-! ## Slots -/

/-- The highest of a number of counters. -/
def level : Nat → Option Nat
  | 0 => none
  | occupied + 1 => some occupied

theorem note_level (counter occupied : Nat) (outer : List (Option Nat)) :
    note counter (level occupied :: outer) = level (max occupied (counter + 1)) :: outer := by
  cases occupied with
  | zero => simp [note, level]
  | succ occupied => simp [note, level]

theorem enclosing_level (group : String) (limit occupied : Nat) :
    enclosing group limit (level occupied)
      = if limit ≤ occupied then .error (.reported (.tooManyCounters group limit))
        else .ok occupied := by
  cases occupied <;> rfl

section

variable {limit : Nat} {counters : List (Option Nat)}

mutual

/-- A node fills the slots of its loops with their counters and raises the highest counter of the
body around it, unless it occupies too many. -/
theorem run_node (group : String)
    (below : ∀ routine counter : Nat, counters[routine]? = some (some counter) → counter < limit)
    {node node' : Node} {occupied : Nat}
    (ok : node.assign counters = .ok (node', occupied)) (waiting : List Visit) (slots : List Nat)
    (before : Nat) (outer : List (Option Nat)) :
    run group limit counters ⟨.enter node :: waiting, slots, level before :: outer⟩
      = if limit < occupied then .error (.reported (.tooManyCounters group limit))
        else run group limit counters
          ⟨waiting, slots ++ node'.loopCounters, level (max before occupied) :: outer⟩ := by
  rw [run_cons]
  match node, ok with
  | .block timestamps, ok =>
    cases ok
    simp [State.visit, Node.loopCounters]
  | .call routine, ok =>
    obtain ⟨counter, known, rfl, rfl⟩ := Node.assign_call_eq_ok ok
    have small := below routine counter known
    rw [if_neg (by omega), State.visit, known]
    dsimp only
    rw [note_level, Node.loopCounters, List.append_nil]
    rfl
  | .loop times _ body, ok =>
    obtain ⟨body', inner, okBody, rfl, rfl⟩ := Node.assign_loop_eq_ok ok
    -- The loop opens a body without counters, and its slot is the first one of the body.
    show run group limit counters ⟨body.map .enter ++ .leave slots.length :: waiting, slots ++ [0],
      level 0 :: level before :: outer⟩ = _
    rw [run_row group below okBody, Nat.zero_max]
    by_cases tooMany : limit < inner
    · rw [if_pos tooMany, if_pos (by omega)]
    rw [if_neg tooMany, run_cons, State.visit]
    dsimp only [List.head?_cons, List.tail_cons, Option.join]
    rw [Option.bind_some, id, enclosing_level]
    by_cases full : limit ≤ inner
    · rw [if_pos full, if_pos (by omega)]
      rfl
    · have slot : slots.length < (slots ++ [0] ++ Node.loopCountersAll body').length := by simp
      rw [if_neg full, if_neg (by omega)]
      dsimp only
      rw [if_pos slot, note_level, Node.loopCounters, Except.ok_bind]
      simp

/-- Nodes in a row, one after the other. -/
theorem run_row (group : String)
    (below : ∀ routine counter : Nat, counters[routine]? = some (some counter) → counter < limit)
    {nodes nodes' : List Node} {occupied : Nat}
    (ok : Node.assignAll counters nodes = .ok (nodes', occupied)) (waiting : List Visit)
    (slots : List Nat) (before : Nat) (outer : List (Option Nat)) :
    run group limit counters ⟨nodes.map .enter ++ waiting, slots, level before :: outer⟩
      = if limit < occupied then .error (.reported (.tooManyCounters group limit))
        else run group limit counters
          ⟨waiting, slots ++ Node.loopCountersAll nodes',
            level (max before occupied) :: outer⟩ := by
  match nodes, ok with
  | [], ok =>
    cases ok
    simp [Node.loopCountersAll]
  | node :: rest, ok =>
    obtain ⟨node', rest', first, others, okNode, okRest, rfl, rfl⟩ := Node.assignAll_cons_eq_ok ok
    rw [List.map_cons, List.cons_append, run_node group below okNode]
    by_cases tooMany : limit < first
    · rw [if_pos tooMany, if_pos (by omega)]
    rw [if_neg tooMany, run_row group below okRest]
    by_cases tooManyLater : limit < others
    · rw [if_pos tooManyLater, if_pos (by omega)]
    · rw [if_neg tooManyLater, if_neg (by omega), Node.loopCountersAll, List.append_assoc,
        max_assoc]

end

/-! ## Written counters -/

mutual

/-- A node takes the counters of its loops from the front and leaves the others. -/
theorem writeBack_node {node node' : Node} {occupied : Nat}
    (ok : node.assign counters = .ok (node', occupied)) (place : Place) (waiting : List Located)
    (others : List Nat) (written : Place → Nat) :
    writeBack (⟨place, node⟩ :: waiting) (node'.loopCounters ++ others) written
      = writeBack waiting others (writeAll written (node'.placedCounters place)) := by
  rw [writeBack]
  match node, ok with
  | .block timestamps, ok =>
    cases ok
    rfl
  | .call routine, ok =>
    obtain ⟨_, _, rfl, _⟩ := Node.assign_call_eq_ok ok
    rfl
  | .loop times _ body, ok =>
    obtain ⟨body', inner, okBody, rfl, rfl⟩ := Node.assign_loop_eq_ok ok
    exact writeBack_row okBody place 0 waiting others (write written place inner)

theorem writeBack_row {nodes nodes' : List Node} {occupied : Nat}
    (ok : Node.assignAll counters nodes = .ok (nodes', occupied)) (around : Place) (index : Nat)
    (waiting : List Located) (others : List Nat) (written : Place → Nat) :
    writeBack (Node.locate around index nodes ++ waiting) (Node.loopCountersAll nodes' ++ others)
        written
      = writeBack waiting others
          (writeAll written (Node.placedCountersAll around index nodes')) := by
  match nodes, ok with
  | [], ok =>
    cases ok
    rfl
  | node :: rest, ok =>
    obtain ⟨node', rest', first, later, okNode, okRest, rfl, rfl⟩ := Node.assignAll_cons_eq_ok ok
    rw [Node.locate, List.cons_append, Node.loopCountersAll, List.append_assoc,
      writeBack_node okNode, writeBack_row okRest, Node.placedCountersAll, writeAll, writeAll,
      ← List.foldl_append]
    rfl

end

mutual

/-- Loops with their own counters written to them are the assigned ones. -/
theorem recount_of_written {node node' : Node} {occupied : Nat}
    (ok : node.assign counters = .ok (node', occupied)) {place : Place} {written : Place → Nat}
    (holds : ∀ pair ∈ node'.placedCounters place, written pair.1 = pair.2) :
    node.recount written place = node' := by
  match node, ok with
  | .block timestamps, ok =>
    cases ok
    rfl
  | .call routine, ok =>
    obtain ⟨_, _, rfl, _⟩ := Node.assign_call_eq_ok ok
    rfl
  | .loop times _ body, ok =>
    obtain ⟨body', inner, okBody, rfl, rfl⟩ := Node.assign_loop_eq_ok ok
    obtain ⟨own, inside⟩ := List.forall_mem_cons.mp holds
    rw [Node.recount, recountAll_of_written okBody inside, own]

theorem recountAll_of_written {nodes nodes' : List Node} {occupied : Nat}
    (ok : Node.assignAll counters nodes = .ok (nodes', occupied)) {around : Place} {index : Nat}
    {written : Place → Nat}
    (holds : ∀ pair ∈ Node.placedCountersAll around index nodes', written pair.1 = pair.2) :
    Node.recountAll written around index nodes = nodes' := by
  match nodes, ok with
  | [], ok =>
    cases ok
    rfl
  | node :: rest, ok =>
    obtain ⟨node', rest', first, later, okNode, okRest, rfl, rfl⟩ := Node.assignAll_cons_eq_ok ok
    obtain ⟨inFirst, inRest⟩ := List.forall_mem_append.mp holds
    rw [Node.recountAll, recount_of_written okNode inFirst, recountAll_of_written okRest inRest]

end

/-! ## Agreement -/

/-- The two passes give nodes the counters of the assignment, or need too many. -/
theorem assignNodes_eq (group : String)
    (below : ∀ routine counter : Nat, counters[routine]? = some (some counter) → counter < limit)
    {nodes nodes' : List Node} {occupied : Nat}
    (ok : Node.assignAll counters nodes = .ok (nodes', occupied)) :
    assignNodes group limit counters nodes
      = if limit < occupied then .error (.reported (.tooManyCounters group limit))
        else .ok (nodes', level occupied) := by
  have visited := run_row group below ok [] [] 0 []
  rw [List.append_nil, Nat.zero_max] at visited
  rw [assignNodes, show ([none] : List (Option Nat)) = [level 0] from rfl, visited]
  by_cases tooMany : limit < occupied
  · rw [if_pos tooMany, if_pos tooMany]
    rfl
  · have wrote := writeBack_row ok [] 0 [] [] fun _ => 0
    rw [List.append_nil, List.append_nil, writeBack] at wrote
    have distinct : ((Node.placedCountersAll [] 0 nodes').map Prod.fst).Nodup :=
      (Node.nodup_placesAll [] 0 nodes').sublist (Node.placedCountersAll_sublist [] 0 nodes')
    rw [if_neg tooMany, if_neg tooMany, run, Except.ok_bind, List.nil_append]
    dsimp only
    rw [wrote, Except.ok_bind,
      recountAll_of_written ok fun pair present => writeAll_of_mem distinct present _]
    rfl

end

open ProgramGraph (Assignment CalleesBefore Descending Progress)

variable {graph : ProgramGraph} {limit : Nat}

theorem below_limit {done : List Nat} {state : Assignment}
    (progress : Progress graph limit done state) (routine counter : Nat)
    (known : state.counters[routine]? = some (some counter)) : counter < limit := by
  by_cases present : routine ∈ done
  · obtain ⟨_, assigned, _, _, found, assignedFrom⟩ := progress.assigned routine present
    rw [known, Option.some.injEq, Option.some.injEq] at found
    exact found ▸ assignedFrom.below
  · have unknown := progress.unknown routine present
    rw [Node.counterIn, known] at unknown
    cases unknown

/-- A subroutine that calls only finished ones gets the body and the counter of the assignment. -/
theorem assignRoutine_eq {done : List Nat} {state : Assignment}
    (progress : Progress graph limit done state) (group : String) {index : Nat}
    (inside : index < graph.routines.length) (fresh : index ∉ done)
    (callees : ∀ callee ∈ graph.callees index, callee ∈ done) :
    assignRoutine group limit state index
      = (ProgramGraph.assignRoutine group limit state index).mapError .reported := by
  have found := List.getElem?_eq_getElem inside
  have foundHere := (progress.untouched index fresh).trans found
  have called : ∀ callee ∈ Node.callsAll graph.routines[index].body,
      ∃ counter, state.counters[callee]? = some (some counter) := by
    intro callee called
    refine progress.known (callees callee ?_)
    rw [ProgramGraph.callees, found]
    exact called
  obtain ⟨⟨body, occupied⟩, ok⟩ := Node.assignAll_ok called
  have slot : index < state.counters.length := by rwa [progress.counters]
  simp only [assignRoutine, ProgramGraph.assignRoutine, foundHere, ProgramGraph.assignNodes, ok,
    assignNodes_eq group (below_limit progress) ok]
  by_cases tooMany : limit < occupied
  · rw [if_pos tooMany, if_pos tooMany]
    rfl
  rw [if_neg tooMany, if_neg tooMany, Except.ok_bind, Except.ok_bind]
  dsimp only
  rw [enclosing_level]
  by_cases full : limit ≤ occupied
  · rw [if_pos full, if_pos full]
    rfl
  · rw [if_neg full, if_neg full, Except.ok_bind, if_pos slot]
    rfl

theorem foldlM_assignRoutine (group : String) (limit : Nat) {order : List Nat}
    (ordered : CalleesBefore graph.callees order)
    (inside : ∀ index ∈ order, index < graph.routines.length) :
    order.foldlM (assignRoutine group limit) ⟨graph.routines, graph.routines.map fun _ => none⟩
      = (order.foldlM (ProgramGraph.assignRoutine group limit)
          ⟨graph.routines, graph.routines.map fun _ => none⟩).mapError .reported := by
  induction ordered with
  | nil => rfl
  | @snoc order index ordered fresh callees ih =>
    have insideOrder : ∀ other ∈ order, other < graph.routines.length :=
      fun other present => inside other (List.mem_append_left _ present)
    rw [List.foldlM_append, List.foldlM_append, ih insideOrder, Except.mapError_bind]
    rcases Progress.fold group limit ordered insideOrder with tooMany | ⟨state, ok, progress⟩
    · rw [tooMany]
      rfl
    · rw [ok]
      show assignRoutine group limit state index >>= pure = _
      rw [assignRoutine_eq progress group (inside index (by simp)) fresh callees]
      show _ = (ProgramGraph.assignRoutine group limit state index >>= pure).mapError _
      rw [Except.mapError_bind]
      rfl

/-- With calls that decrease a measure, the two passes assign the counters of the graph. No counter
of a subroutine is used before it is there, and the slots are as many as the loops. -/
theorem assignCounters_eq {measure : Nat → Nat}
    (descending : Descending graph.callees measure graph.routines.length)
    (callees : ∀ routine ∈ Node.callsAll graph.main, routine < graph.routines.length)
    (group : String) (limit : Nat) :
    assignCounters graph group limit
      = (graph.assignCounters group limit).mapError .reported := by
  obtain ⟨ordered, complete⟩ := ProgramGraph.calleesFirst_spec descending
  have inside := fun index present => (complete index).mp present
  simp only [assignCounters, ProgramGraph.assignCounters, DepthFirst.search_eq descending,
    Except.pure_eq_ok, Except.ok_bind, foldlM_assignRoutine group limit ordered inside]
  rcases Progress.fold group limit ordered inside with tooMany | ⟨state, ok, progress⟩
  · rw [tooMany]
    rfl
  obtain ⟨⟨main, occupied⟩, okMain⟩ := Node.assignAll_ok fun routine called =>
    progress.known ((complete routine).mpr (callees routine called))
  rw [ok]
  show assignNodes group limit state.counters graph.main >>= _ = _
  rw [assignNodes_eq group (below_limit progress) okMain, Except.ok_bind, ProgramGraph.assignNodes,
    okMain]
  dsimp only
  split <;> rfl

end Allocation

/-- The counters of the graph of an element come out the same in two passes. -/
theorem ProgramGraph.GraphOf.allocation_eq {e : Element} {graph : ProgramGraph}
    (graphOf : GraphOf e graph) (group : String) (limit : Nat) :
    Allocation.assignCounters graph group limit
      = (graph.assignCounters group limit).mapError .reported := by
  refine Allocation.assignCounters_eq graphOf.descending (fun routine called => ?_) group limit
  obtain ⟨nodes, lowered, same⟩ := graphOf.main
  rw [same, Node.callsAll_joinBlocks] at called
  exact (sourceSize_lt lowered called).1

end PulseSequencer

import PulseSequencer.Proofs.Program.Lowering

/-!
# Building a graph from a list of tasks

The same graph without recursion into elements. The elements that are still to be visited wait in
one list, and the bodies that are still open in another. An element that opens a body leaves a task
behind it that closes the body again, and the table of subroutines fills up while bodies around the
subroutines are open.

Results:
1. `weight_of_perform`: a task leaves lighter tasks behind, so the tasks come to an end.
2. `run_element`: the tasks of an element append its nodes to the innermost open body and its
   subroutines to the table, whatever else is open or waiting.
3. `build_eq`: so the graph is that of `ProgramGraph.ofElement`. No body is left open, and none is
   closed that is not open.
-/

namespace PulseSequencer

namespace Worklist

/-! ## Tasks and open bodies -/

inductive Task where
  | visit (element : Element)
  /-- Closes the innermost open body. -/
  | close

inductive Scope where
  | main
  | loop (times : UInt32)
  /-- The body of the subroutine with this index in the table. -/
  | routine (index : Nat)

/-- A body that is not finished, with its nodes so far. -/
structure Open where
  scope : Scope
  nodes : List Node

/-- The waiting tasks, the next one first, the open bodies, the innermost one first, and the table
of subroutines. -/
structure State where
  tasks : List Task
  bodies : List Open
  table : List Routine

inductive Failure where
  | unsupported (feature : Unsupported)
  | noOpenBody
  | unknownRoutine (index : Nat)
  | unbalanced

/-- Adds a timestamp to the last block, or a new block after any other node. -/
def play (nodes : List Node) (t : Timestamp) : List Node :=
  match nodes.getLast? with
  | some (.block timestamps) => nodes.dropLast ++ [.block (timestamps ++ [t])]
  | _ => nodes ++ [.block [t]]

/-- Changes the nodes of the innermost open body. -/
def modify (change : List Node → List Node) : List Open → Except Failure (List Open)
  | innermost :: bodies => .ok ({ innermost with nodes := change innermost.nodes } :: bodies)
  | [] => .error .noOpenBody

namespace State

/-- Opens a body, to be closed after its element. -/
def enter (state : State) (scope : Scope) (body : Element) : State :=
  { state with
    tasks := .visit body :: .close :: state.tasks, bodies := ⟨scope, []⟩ :: state.bodies }

def visit (state : State) : Element → Except Failure State
  | .timestamp t => do
    let bodies ← modify (play · t) state.bodies
    return { state with bodies := bodies }
  | .trigger => .error (.unsupported .trigger)
  | .parallel _ => .error (.unsupported .parallel)
  | .sequence children => .ok { state with tasks := children.map .visit ++ state.tasks }
  | .repeated body times => .ok (state.enter (.loop times) body)
  | .subroutine body =>
    match state.table.findIdx? (fun routine => routine.source == body) with
    | some index => do
      let bodies ← modify (· ++ [.call index]) state.bodies
      return { state with bodies := bodies }
    | none => do
      let index := state.table.length
      let bodies ← modify (· ++ [.call index]) state.bodies
      let table := state.table ++ [⟨body, [], 0⟩]
      return { state with bodies := bodies, table := table }.enter (.routine index) body

def close (state : State) : Except Failure State :=
  match state.bodies with
  | ⟨.loop times, nodes⟩ :: bodies => do
    let bodies ← modify (· ++ [.loop times 0 nodes]) bodies
    return { state with bodies := bodies }
  | ⟨.routine index, nodes⟩ :: bodies =>
    match state.table[index]? with
    | some routine =>
      let table := state.table.set index { routine with body := nodes }
      .ok { state with bodies := bodies, table := table }
    | none => .error (.unknownRoutine index)
  | _ => .error .unbalanced

def perform (state : State) : Task → Except Failure State
  | .visit element => state.visit element
  | .close => state.close

end State

/-- The graph when no tasks are left. -/
def finish (table : List Routine) : List Open → Except Failure ProgramGraph
  | [⟨.main, nodes⟩] => .ok ⟨nodes, table⟩
  | _ => .error .unbalanced

/-! ## Running the tasks -/

def Task.weight : Task → Nat
  | .visit element => 2 * element.size
  | .close => 1

def weight : List Task → Nat
  | [] => 0
  | task :: tasks => task.weight + weight tasks

theorem weight_visitAll (elements : List Element) (tasks : List Task) :
    weight (elements.map .visit ++ tasks) = 2 * Element.sizeAll elements + weight tasks := by
  induction elements with
  | nil => simp [Element.sizeAll]
  | cons element rest ih =>
    rw [List.map_cons, List.cons_append, weight, ih, Task.weight, Element.sizeAll]
    omega

namespace State

theorem weight_of_visit {state next : State} {element : Element}
    (ok : state.visit element = .ok next) :
    weight next.tasks < 2 * element.size + weight state.tasks := by
  cases element with
  | timestamp t =>
    obtain ⟨bodies, _, ok⟩ := Except.bind_eq_ok_iff.mp ok
    cases ok
    simp only [Element.size]
    omega
  | trigger => cases ok
  | parallel children => cases ok
  | sequence children =>
    cases ok
    rw [weight_visitAll, Element.size]
    omega
  | repeated body times =>
    cases ok
    simp only [enter, weight, Task.weight, Element.size]
    omega
  | subroutine body =>
    simp only [visit] at ok
    split at ok
    · obtain ⟨bodies, _, ok⟩ := Except.bind_eq_ok_iff.mp ok
      cases ok
      simp only [Element.size]
      omega
    · obtain ⟨bodies, _, ok⟩ := Except.bind_eq_ok_iff.mp ok
      cases ok
      simp only [enter, weight, Task.weight, Element.size]
      omega

theorem tasks_of_close {state next : State} (ok : state.close = .ok next) :
    next.tasks = state.tasks := by
  unfold close at ok
  split at ok
  · obtain ⟨bodies, _, ok⟩ := Except.bind_eq_ok_iff.mp ok
    cases ok
    rfl
  · split at ok
    · cases ok
      rfl
    · cases ok
  · cases ok

theorem weight_of_perform {state next : State} {task : Task}
    (ok : state.perform task = .ok next) :
    weight next.tasks < weight (task :: state.tasks) := by
  cases task with
  | visit element => exact weight_of_visit ok
  | close =>
    rw [tasks_of_close ok, weight, Task.weight]
    omega

end State

/-- Performs tasks until none is left. -/
def run : State → Except Failure ProgramGraph
  | ⟨[], bodies, table⟩ => finish table bodies
  | ⟨task :: tasks, bodies, table⟩ =>
    match _performed : State.perform ⟨tasks, bodies, table⟩ task with
    | .ok next => run next
    | .error failure => .error failure
termination_by state => weight state.tasks
decreasing_by exact State.weight_of_perform _performed

/-- The graph of an element, with a body open for the main program. -/
def build (element : Element) : Except Failure ProgramGraph :=
  run ⟨[.visit element], [⟨.main, []⟩], []⟩

theorem run_cons (task : Task) (tasks : List Task) (bodies : List Open) (table : List Routine) :
    run ⟨task :: tasks, bodies, table⟩ = State.perform ⟨tasks, bodies, table⟩ task >>= run := by
  rw [run]
  split
  · next performed => rw [performed]; rfl
  · next performed => rw [performed]; rfl

/-! ## Joined blocks -/

theorem play_concat (nodes : List Node) (last : Node) (t : Timestamp) :
    play (nodes ++ [last]) t = nodes ++ play [last] t := by
  cases last <;> simp [play]

theorem cons_eq_append (node next : Node) (rest : List Node) :
    Node.cons node (next :: rest) = Node.cons node [next] ++ rest := by
  cases node <;> cases next <;> rfl

/-- Joining on the left and playing on the right do not get in each other's way. -/
theorem cons_play (node : Node) (nodes : List Node) (t : Timestamp) :
    Node.cons node (play nodes t) = play (Node.cons node nodes) t := by
  rcases nodes.eq_nil_or_concat with rfl | ⟨_ | ⟨next, rest⟩, last, rfl⟩
  · cases node <;> rfl
  · cases node <;> cases last <;> simp [play, Node.cons]
  · rw [List.concat_eq_append, play_concat, List.cons_append, List.cons_append,
      cons_eq_append node next (rest ++ play [last] t), cons_eq_append node next (rest ++ [last]),
      ← List.append_assoc, ← List.append_assoc, play_concat]

/-- A timestamp after nodes, added to the joined ones. -/
theorem joinBlocks_block (nodes : List Node) (t : Timestamp) :
    Node.joinBlocks (nodes ++ [.block [t]]) = play (Node.joinBlocks nodes) t := by
  induction nodes with
  | nil => rfl
  | cons node rest ih =>
    show Node.cons node (Node.joinBlocks (rest ++ [.block [t]])) = _
    rw [ih, cons_play]
    rfl

/-- Nodes other than blocks are appended as they are. -/
theorem joinBlocks_concat {last : Node} (other : ∀ timestamps, last ≠ .block timestamps)
    (nodes : List Node) : Node.joinBlocks (nodes ++ [last]) = Node.joinBlocks nodes ++ [last] := by
  induction nodes with
  | nil =>
    cases last with
    | block timestamps => exact absurd rfl (other timestamps)
    | _ => rfl
  | cons node rest ih =>
    show Node.cons node (Node.joinBlocks (rest ++ [last]))
      = Node.cons node (Node.joinBlocks rest) ++ [last]
    rw [ih]
    cases Node.joinBlocks rest with
    | nil =>
      cases last with
      | block timestamps => exact absurd rfl (other timestamps)
      | _ => cases node <;> rfl
    | cons next rest =>
      rw [List.cons_append, cons_eq_append node next (rest ++ [last]),
        cons_eq_append node next rest, List.append_assoc]

/-! ## The tasks of an element -/

open ProgramGraph

mutual

/-- An element is lowered into the innermost open body. The nodes that the body has are joined
already, and those of the element are joined to them. -/
theorem run_element (e : Element) (tasks : List Task) (before : List Node) (scope : Scope)
    (bodies : List Open) (table : List Routine) :
    run ⟨.visit e :: tasks, ⟨scope, Node.joinBlocks before⟩ :: bodies, table⟩ =
      (lower table e).mapError .unsupported >>= fun (nodes, result) =>
        run ⟨tasks, ⟨scope, Node.joinBlocks (before ++ nodes)⟩ :: bodies, result⟩ := by
  -- The waiting tasks and the bodies around stay arbitrary: a body that is opened waits for its
  -- `close` and has the present body around it.
  rw [run_cons]
  match e with
  | .timestamp t =>
    show run _ = run _
    rw [joinBlocks_block]
  | .trigger => rfl
  | .parallel children => rfl
  | .sequence children =>
    rw [lower]
    exact run_elements children tasks before scope bodies table
  | .repeated body times =>
    show run ⟨.visit body :: .close :: tasks, ⟨.loop times, Node.joinBlocks []⟩ ::
      ⟨scope, Node.joinBlocks before⟩ :: bodies, table⟩ = _
    rw [run_element body, lower]
    cases lower table body with
    | error feature => rfl
    | ok lowered =>
      show run ⟨.close :: tasks, _, _⟩ = run _
      rw [run_cons, joinBlocks_concat (by simp)]
      rfl
  | .subroutine body =>
    show State.visit ⟨tasks, _, table⟩ (.subroutine body) >>= run = _
    rw [lower, State.visit]
    dsimp only
    cases found : table.findIdx? (fun routine => routine.source == body) with
    | some index =>
      show run _ = run _
      rw [joinBlocks_concat (by simp)]
    | none =>
      show run ⟨.visit body :: .close :: tasks, ⟨.routine table.length, Node.joinBlocks []⟩ ::
        ⟨scope, Node.joinBlocks before ++ [.call table.length]⟩ :: bodies, _⟩ = _
      rw [run_element body]
      cases opened : lower (table ++ [⟨body, [], 0⟩]) body with
      | error feature => rfl
      | ok lowered =>
        obtain ⟨nodes, result⟩ := lowered
        -- What is added to the table inside the body leaves the entry of the body where it is.
        have placeholder : result[table.length]? = some ⟨body, [], 0⟩ := by
          obtain ⟨added, rfl, _⟩ := lower_spec opened
          simp
        show run ⟨.close :: tasks, ⟨.routine table.length, Node.joinBlocks nodes⟩ :: _, result⟩
          = run _
        rw [run_cons, State.perform, State.close]
        dsimp only
        rw [placeholder, joinBlocks_concat (by simp)]
        rfl

theorem run_elements (elements : List Element) (tasks : List Task) (before : List Node)
    (scope : Scope) (bodies : List Open) (table : List Routine) :
    run ⟨elements.map .visit ++ tasks, ⟨scope, Node.joinBlocks before⟩ :: bodies, table⟩ =
      (lowerAll table elements).mapError .unsupported >>= fun (nodes, result) =>
        run ⟨tasks, ⟨scope, Node.joinBlocks (before ++ nodes)⟩ :: bodies, result⟩ := by
  match elements with
  | [] =>
    rw [lowerAll]
    show run _ = run _
    rw [List.append_nil]
    rfl
  | element :: rest =>
    rw [List.map_cons, List.cons_append, run_element element, lowerAll]
    cases lower table element with
    | error feature => rfl
    | ok lowered =>
      obtain ⟨first, middle⟩ := lowered
      show run ⟨rest.map .visit ++ tasks, _, middle⟩ = _
      rw [run_elements rest, Except.ok_bind]
      dsimp only
      cases lowerAll middle rest with
      | error feature => rfl
      | ok others =>
        show run _ = run _
        rw [List.append_assoc]

end

theorem build_eq (e : Element) : build e = (ofElement e).mapError .unsupported := by
  have visited : build e = _ := run_element e [] [] .main [] []
  rw [visited, ofElement]
  cases lower [] e with
  | error feature => rfl
  | ok lowered =>
    show run ⟨[], [⟨.main, Node.joinBlocks lowered.1⟩], lowered.2⟩ = _
    rw [run]
    rfl

end Worklist

end PulseSequencer

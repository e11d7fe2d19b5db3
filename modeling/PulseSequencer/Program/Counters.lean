import PulseSequencer.CompileError

/-!
# Loop counters

Every loop and every subroutine uses one hardware counter, which no loop inside of it and no
subroutine called from it may use. One without loops and calls takes counter 0, any other one the
counter after the highest one inside. A call occupies the counter of the subroutine.
-/

namespace PulseSequencer

namespace ProgramGraph

/-! ## Order of subroutines -/

/-- Appends a subroutine to the finished ones, after the subroutines it calls. Chains of calls are
followed up to `depth` subroutines. -/
def finish (calls : Nat → List Nat) : Nat → List Nat → Nat → List Nat
  | 0, finished, _ => finished
  | depth + 1, finished, routine =>
    if routine ∈ finished then finished
    else (calls routine).foldl (finish calls depth) finished ++ [routine]

/-- The subroutines that a subroutine calls, at any depth of its body. -/
def callees (graph : ProgramGraph) (routine : Nat) : List Nat :=
  match graph.routines[routine]? with
  | some routine => Node.callsAll routine.body
  | none => []

/-- All subroutines, each after the ones it calls. -/
def calleesFirst (graph : ProgramGraph) : List Nat :=
  let count := graph.routines.length
  (List.range count).foldl (finish graph.callees count) []

end ProgramGraph

/-! ## Assignment -/

namespace Node

mutual

/-- Gives a node its counters. `counters` holds those of the subroutines so far. Also returns the
number of counters that the node occupies. -/
def assign (counters : List (Option Nat)) : Node → Except Fault (Node × Nat)
  | .block timestamps => .ok (.block timestamps, 0)
  | .loop times _ body => do
    let (body, inner) ← assignAll counters body
    return (.loop times inner body, inner + 1)
  | .call routine =>
    match counters[routine]? with
    | some (some counter) => .ok (.call routine, counter + 1)
    | _ => .error (.counterMissing routine)

def assignAll (counters : List (Option Nat)) : List Node → Except Fault (List Node × Nat)
  | [] => .ok ([], 0)
  | node :: rest => do
    let (node, first) ← assign counters node
    let (rest, others) ← assignAll counters rest
    return (node :: rest, max first others)

end

end Node

namespace ProgramGraph

/-- Assigns the counters of nodes that may occupy at most `limit` of them. -/
def assignNodes (group : String) (limit : Nat) (counters : List (Option Nat)) (nodes : List Node) :
    Except CompileError (List Node × Nat) :=
  match Node.assignAll counters nodes with
  | .error fault => .error (.internal fault)
  | .ok (nodes, occupied) =>
    if limit < occupied then .error (.tooManyCounters group limit) else .ok (nodes, occupied)

/-- The subroutines with the counters assigned so far. -/
structure Assignment where
  routines : List Routine
  counters : List (Option Nat)

def assignRoutine (group : String) (limit : Nat) (assignment : Assignment) (index : Nat) :
    Except CompileError Assignment :=
  match assignment.routines[index]? with
  | none => .error (.internal (.unknownRoutine index))
  | some routine => do
    let (body, counter) ← assignNodes group limit assignment.counters routine.body
    if limit ≤ counter then throw (.tooManyCounters group limit)
    return {
      routines := assignment.routines.set index { routine with body, counter }
      counters := assignment.counters.set index (some counter) }

/-- Assigns a counter below `limit` to every loop and subroutine. -/
def assignCounters (graph : ProgramGraph) (group : String) (limit : Nat) :
    Except CompileError ProgramGraph := do
  let start : Assignment := ⟨graph.routines, graph.routines.map fun _ => none⟩
  let assignment ← graph.calleesFirst.foldlM (assignRoutine group limit) start
  let (main, _) ← assignNodes group limit assignment.counters graph.main
  return { main, routines := assignment.routines }

end ProgramGraph

end PulseSequencer

import Mathlib.Logic.Relation
import PulseSequencer.Proofs.Program.CallOrder
import PulseSequencer.Proofs.Program.Lowering

/-!
# Calls followed with a stack

The same order of subroutines without recursion. A subroutine is entered and left, and between the
two the subroutines that it calls wait on one stack with everything that waited before. Entries may
wait more than once, so a subroutine is marked when it is first entered, and its later entries are
dropped. The calls of a body are found with a second list, of the nodes still to be looked at.

A marked subroutine that is not finished is a caller of the one being entered, as long as calls are
not circular. So the marks are at any time the finished subroutines and the callers.

Results:
1. `visit_decreases`: an entry leaves fewer unmarked subroutines or a shorter stack behind, so the
   search comes to an end, on any graph.
2. `run_enter`: entering a subroutine has the effect of `ProgramGraph.finish`, whatever waits.
3. `search_eq`: so the order is that of `ProgramGraph.calleesFirst`.
4. `calleesFirst_topological`: where calls are not circular, that order holds every subroutine once,
   after all that it calls.
-/

namespace PulseSequencer

namespace Node

mutual

/-- The number of nodes, those inside of loops included. -/
def size : Node → Nat
  | .loop _ _ body => sizeAll body + 1
  | _ => 1

def sizeAll : List Node → Nat
  | [] => 0
  | node :: rest => node.size + sizeAll rest

end

theorem sizeAll_append (first second : List Node) :
    sizeAll (first ++ second) = sizeAll first + sizeAll second := by
  induction first with
  | nil => simp [sizeAll]
  | cons node rest ih => simp [sizeAll, ih, Nat.add_assoc]

theorem sizeAll_reverse (nodes : List Node) : sizeAll nodes.reverse = sizeAll nodes := by
  induction nodes with
  | nil => rfl
  | cons node rest ih => simp [sizeAll_append, sizeAll, ih, Nat.add_comm]

end Node

namespace DepthFirst

/-! ## The stack -/

inductive Entry where
  | enter (routine : Nat)
  /-- Comes after all that the subroutine calls. -/
  | leave (routine : Nat)

/-- The waiting entries, the next one first, which subroutines were entered, and the finished ones
in order. -/
structure State where
  stack : List Entry
  visited : List Bool
  order : List Nat

/-- Puts the calls in some nodes on the stack, those of the last node first, so that the first call
comes to stand on top. Subroutines that were entered before are left out. -/
def pushCalls (visited : List Bool) : List Node → List Entry → Option (List Entry)
  | [], stack => some stack
  | .call routine :: nodes, stack =>
    match visited[routine]? with
    | some true => pushCalls visited nodes stack
    | some false => pushCalls visited nodes (.enter routine :: stack)
    | none => none
  | .loop _ _ body :: nodes, stack => pushCalls visited (body.reverse ++ nodes) stack
  | .block _ :: nodes, stack => pushCalls visited nodes stack
termination_by nodes => Node.sizeAll nodes
decreasing_by
  all_goals
    simp only [Node.sizeAll, Node.size, Node.sizeAll_append, List.unattach_reverse,
      List.unattach_attach, Node.sizeAll_reverse]
    omega

/-- What an entry does that was taken from the stack. -/
def visit (graph : ProgramGraph) (state : State) : Entry → Option State
  | .leave routine => some { state with order := state.order ++ [routine] }
  | .enter routine =>
    match state.visited[routine]? with
    | some true => some state
    | some false => do
      let visited := state.visited.set routine true
      let entered ← graph.routines[routine]?
      let stack ← pushCalls visited entered.body.reverse (.leave routine :: state.stack)
      return { state with stack, visited }
    | none => none

theorem count_set_visited {visited : List Bool} {routine : Nat}
    (unvisited : visited[routine]? = some false) :
    (visited.set routine true).count false < visited.count false := by
  obtain ⟨inside, same⟩ := List.getElem?_eq_some_iff.mp unvisited
  have present : 0 < visited.count false := List.count_pos_iff.mpr (same ▸ List.getElem_mem inside)
  rw [List.count_set inside, same, if_pos (by decide), if_neg (by decide)]
  exact Nat.sub_lt present Nat.one_pos

/-- An entry marks a subroutine, or leaves nothing new on the stack. -/
theorem visit_decreases {graph : ProgramGraph} {state next : State} {entry : Entry}
    (performed : visit graph state entry = some next) :
    next.visited.count false < state.visited.count false ∨
    next.visited.count false = state.visited.count false ∧ next.stack = state.stack := by
  cases entry with
  | leave routine =>
    cases performed
    exact .inr ⟨rfl, rfl⟩
  | enter routine =>
    rw [visit] at performed
    split at performed
    · cases performed
      exact .inr ⟨rfl, rfl⟩
    · next unvisited =>
      simp only [Option.bind_eq_bind, Option.bind_eq_some_iff] at performed
      obtain ⟨entered, _, stack, _, same⟩ := performed
      cases same
      exact .inl (count_set_visited unvisited)
    · cases performed

/-- Follows the entries until the stack is empty. -/
def run (graph : ProgramGraph) : State → Option State
  | ⟨[], visited, order⟩ => some ⟨[], visited, order⟩
  | ⟨entry :: stack, visited, order⟩ =>
    match _performed : visit graph ⟨stack, visited, order⟩ entry with
    | some next => run graph next
    | none => none
termination_by state => (state.visited.count false, state.stack.length)
decreasing_by
  rcases visit_decreases _performed with less | ⟨same, stack⟩
  · exact Prod.Lex.left _ _ less
  · simp only [same, stack]
    exact Prod.Lex.right _ (Nat.lt_succ_self _)

/-- The finished subroutines, after each one was entered in turn. -/
def search (graph : ProgramGraph) : Option (List Nat) := do
  let count := graph.routines.length
  let state ← (List.range count).foldlM (fun state root =>
    run graph { state with stack := [.enter root] }) ⟨[], List.replicate count false, []⟩
  return state.order

theorem run_cons (graph : ProgramGraph) (entry : Entry) (stack : List Entry) (visited : List Bool)
    (order : List Nat) :
    run graph ⟨entry :: stack, visited, order⟩
      = visit graph ⟨stack, visited, order⟩ entry >>= run graph := by
  rw [run]
  split
  · next performed => rw [performed]; rfl
  · next performed => rw [performed]; rfl

/-! ## Calls on the stack -/

theorem callsAll_reverse_cons (node : Node) (nodes : List Node) :
    Node.callsAll (node :: nodes).reverse = Node.callsAll nodes.reverse ++ node.calls := by
  simp [Node.callsAll]

/-- The calls stand on the stack in the order of the program. -/
theorem pushCalls_eq (visited : List Bool) (nodes : List Node) (stack : List Entry)
    (inside : ∀ callee ∈ Node.callsAll nodes.reverse, callee < visited.length) :
    pushCalls visited nodes stack = some
      (((Node.callsAll nodes.reverse).filter fun callee => visited[callee]? = some false).map .enter
        ++ stack) := by
  fun_induction pushCalls visited nodes stack with
  | case1 stack => simp [Node.callsAll]
  | case2 routine nodes stack found ih =>
    rw [callsAll_reverse_cons, Node.calls] at inside ⊢
    rw [ih fun callee called => inside callee (List.mem_append_left _ called)]
    simp [found]
  | case3 routine nodes stack found ih =>
    rw [callsAll_reverse_cons, Node.calls] at inside ⊢
    rw [ih fun callee called => inside callee (List.mem_append_left _ called)]
    simp [found]
  | case4 routine nodes stack missing =>
    rw [callsAll_reverse_cons, Node.calls] at inside
    have := inside routine (by simp)
    rw [List.getElem?_eq_none_iff] at missing
    omega
  | case5 times counter body nodes stack ih =>
    simp only [List.unattach_reverse, List.unattach_attach, List.reverse_append,
      List.reverse_reverse, Node.callsAll_append] at ih
    rw [callsAll_reverse_cons, Node.calls] at inside ⊢
    exact ih inside
  | case6 timestamps nodes stack ih =>
    rw [callsAll_reverse_cons, Node.calls, List.append_nil] at inside ⊢
    exact ih inside

/-! ## Marks -/

/-- The marks of the finished subroutines and the callers of the next one. -/
def marks (count : Nat) (finished : List Nat) (callers : Finset Nat) : List Bool :=
  (List.range count).map fun routine => decide (routine ∈ finished ∨ routine ∈ callers)

section

variable {count routine : Nat} {finished : List Nat} {callers : Finset Nat}

@[simp] theorem length_marks : (marks count finished callers).length = count := by
  simp [marks]

theorem getElem?_marks (inside : routine < count) :
    (marks count finished callers)[routine]?
      = some (decide (routine ∈ finished ∨ routine ∈ callers)) := by
  simp [marks, inside]

/-- A subroutine is a caller while it is open. -/
theorem set_marks : (marks count finished callers).set routine true
    = marks count finished (insert routine callers) := by
  refine List.ext_getElem (by simp) fun index inSet inMarks => ?_
  rw [List.getElem_set]
  simp only [marks, List.getElem_map, List.getElem_range, Finset.mem_insert]
  split
  · next same => simp [same]
  · next other => simp [Ne.symm other]

/-- A subroutine that is left is finished. -/
theorem marks_snoc : marks count (finished ++ [routine]) callers
    = marks count finished (insert routine callers) := by
  refine List.map_congr_left fun index _ => ?_
  simp only [List.mem_append, List.mem_singleton, Finset.mem_insert, or_assoc]

end

/-! ## Entered subroutines -/

open ProgramGraph

theorem mem_finish {calls : Nat → List Nat} {depth entry : Nat} :
    ∀ {finished : List Nat} {routine : Nat}, entry ∈ finished →
      entry ∈ finish calls depth finished routine := by
  induction depth with
  | zero => exact fun present => present
  | succ depth ih =>
    intro finished routine present
    rw [finish]
    split
    · exact present
    · exact List.mem_append_left _ <|
        List.foldlRecOn (motive := fun result => entry ∈ result) (calls routine)
          (finish calls depth) present fun _ kept _ _ => ih kept

theorem finish_of_mem {calls : Nat → List Nat} {finished : List Nat} {routine : Nat}
    (present : routine ∈ finished) (depth : Nat) :
    finish calls depth finished routine = finished := by
  cases depth with
  | zero => rfl
  | succ depth => rw [finish, if_pos present]

/-- The state while `callers` are open. -/
def between (graph : ProgramGraph) (stack : List Entry) (finished : List Nat)
    (callers : Finset Nat) : State :=
  ⟨stack, marks graph.routines.length finished callers, finished⟩

section

variable {graph : ProgramGraph} {measure : Nat → Nat}

/-- Callees one after the other, if each of them has the effect of `finish`. Those that were entered
before the first of them are not on the stack, and they are finished. -/
theorem run_callees {depth : Nat} {callers : Finset Nat} {before callees : List Nat}
    (rest : List Entry)
    (step : ∀ callee ∈ callees, ∀ finished rest,
      run graph (between graph (.enter callee :: rest) finished callers)
        = run graph (between graph rest (finish graph.callees depth finished callee) callers)) :
    ∀ finished, (∀ entry ∈ before, entry ∈ finished) →
      run graph (between graph
          ((callees.filter fun callee => callee ∉ before).map .enter ++ rest) finished callers)
        = run graph (between graph rest
          (callees.foldl (finish graph.callees depth) finished) callers) := by
  induction callees with
  | nil => exact fun _ _ => rfl
  | cons callee callees ih =>
    intro finished kept
    have later := ih fun callee called => step callee (List.mem_cons_of_mem _ called)
    by_cases early : callee ∈ before
    · rw [List.filter_cons_of_neg (by simpa using early), later finished kept, List.foldl_cons,
        finish_of_mem (kept callee early)]
    · rw [List.filter_cons_of_pos (by simpa using early), List.map_cons, List.cons_append,
        step callee List.mem_cons_self, List.foldl_cons]
      exact later _ fun entry present => mem_finish (kept entry present)

variable (descending : Descending graph.callees measure graph.routines.length)

include descending

/-- A subroutine that is entered becomes a caller, with its callees on the stack. A callee has a
smaller measure than any caller, so that only finished ones are left out. -/
theorem visit_fresh {routine : Nat} {finished : List Nat} {callers : Finset Nat}
    (rest : List Entry) (inside : routine < graph.routines.length) (fresh : routine ∉ finished)
    (above : ∀ caller ∈ callers, measure routine < measure caller) :
    visit graph (between graph rest finished callers) (.enter routine)
      = some (between graph (((graph.callees routine).filter fun callee => callee ∉ finished).map
        .enter ++ .leave routine :: rest) finished (insert routine callers)) := by
  have closed : routine ∉ callers := fun caller => lt_irrefl _ (above routine caller)
  have unmarked : (marks graph.routines.length finished callers)[routine]? = some false := by
    rw [getElem?_marks inside]
    simp [fresh, closed]
  obtain ⟨entered, found⟩ : ∃ entered, graph.routines[routine]? = some entered :=
    ⟨_, List.getElem?_eq_getElem inside⟩
  have body : graph.callees routine = Node.callsAll entered.body.reverse.reverse := by
    rw [callees, found, List.reverse_reverse]
  have unvisited : ∀ callee ∈ graph.callees routine,
      decide ((marks graph.routines.length finished (insert routine callers))[callee]? = some false)
        = decide (callee ∉ finished) := by
    intro callee called
    have other : callee ∉ insert routine callers := fun caller =>
      lt_irrefl _ (descending.below_callers called above callee caller)
    rw [getElem?_marks (descending.inside routine callee called)]
    simp [other]
  have pushed := pushCalls_eq (marks graph.routines.length finished (insert routine callers))
    entered.body.reverse (.leave routine :: rest) (by
      rw [← body, length_marks]
      exact descending.inside routine)
  rw [← body, List.filter_congr unvisited] at pushed
  simp only [visit, between, unmarked, found, set_marks, Option.bind_eq_bind, Option.bind_some,
    pushed]
  rfl

/-- Entering a subroutine finishes it, and leaves what waited on the stack. -/
theorem run_enter {depth : Nat} :
    ∀ {routine : Nat} {finished : List Nat} {callers : Finset Nat} {rest : List Entry},
      routine < graph.routines.length → callers ⊆ Finset.range graph.routines.length →
      (∀ caller ∈ callers, measure routine < measure caller) →
      graph.routines.length ≤ depth + callers.card →
      run graph (between graph (.enter routine :: rest) finished callers)
        = run graph (between graph rest (finish graph.callees depth finished routine) callers) := by
  -- As in `finish_spec`, the callers are distinct, so `depth` runs out only after all of them.
  induction depth with
  | zero =>
    intro routine finished callers rest inside subset above room
    have := card_callers_lt inside subset above
    omega
  | succ depth ih =>
    intro routine finished callers rest inside subset above room
    rw [between, run_cons, finish]
    by_cases present : routine ∈ finished
    · have marked : (marks graph.routines.length finished callers)[routine]? = some true := by
        rw [getElem?_marks inside]
        simp [present]
      rw [if_pos present, visit, marked]
      rfl
    · obtain ⟨subset', card⟩ := insert_callers inside subset above
      have callee : ∀ callee ∈ graph.callees routine, ∀ finished rest,
          run graph (between graph (.enter callee :: rest) finished (insert routine callers))
            = run graph (between graph rest (finish graph.callees depth finished callee)
              (insert routine callers)) := by
        intro callee called finished rest
        exact ih (descending.inside routine callee called) subset'
          (descending.below_callers called above) (by omega)
      have entered := visit_fresh descending rest inside present above
      rw [between] at entered
      rw [if_neg present, entered]
      show run graph (between _ _ _ _) = _
      rw [run_callees _ callee finished fun _ old => old, between, run_cons, visit]
      show run graph ⟨rest, _, _⟩ = _
      rw [between, marks_snoc]

/-- Every subroutine is finished in turn, with no callers above it. -/
theorem foldlM_run {roots : List Nat} (inside : ∀ root ∈ roots, root < graph.routines.length)
    (finished : List Nat) :
    roots.foldlM (fun state root => run graph { state with stack := [.enter root] })
        (between graph [] finished ∅)
      = some (between graph [] (roots.foldl (finish graph.callees graph.routines.length) finished)
        ∅) := by
  induction roots generalizing finished with
  | nil => rfl
  | cons root roots ih =>
    have room : graph.routines.length ≤ graph.routines.length + (∅ : Finset Nat).card := by simp
    rw [List.foldlM_cons, List.foldl_cons]
    show run graph (between graph [.enter root] finished ∅) >>= _ = _
    rw [run_enter descending (inside root List.mem_cons_self) (by simp) (by simp) room, between,
      run]
    exact ih (fun root later => inside root (List.mem_cons_of_mem _ later)) _

theorem search_eq : search graph = some graph.calleesFirst := by
  have start : List.replicate graph.routines.length false = marks graph.routines.length [] ∅ := by
    simp [marks]
  have finishes := foldlM_run descending (fun root inRange => List.mem_range.mp inRange) []
  rw [search, start]
  show List.foldlM _ (between graph [] [] ∅) _ >>= _ = _
  rw [finishes]
  rfl

end

end DepthFirst

/-! ## The order -/

namespace ProgramGraph

/-- Where calls are in the table and not circular, the order holds every subroutine once and after
all that it calls, and the search with a stack comes to it. -/
theorem calleesFirst_topological (graph : ProgramGraph)
    (inside : ∀ caller, ∀ callee ∈ graph.callees caller, callee < graph.routines.length)
    (acyclic : ∀ routine,
      ¬ Relation.TransGen (fun caller callee => callee ∈ graph.callees caller) routine routine) :
    graph.calleesFirst.Perm (List.range graph.routines.length) ∧
    (∀ caller, ∀ callee ∈ graph.callees caller,
      graph.calleesFirst.idxOf callee < graph.calleesFirst.idxOf caller) ∧
    DepthFirst.search graph = some graph.calleesFirst := by
  obtain ⟨measure, descending⟩ := descending_of_acyclic inside acyclic
  obtain ⟨ordered, complete⟩ := calleesFirst_spec descending
  refine ⟨?_, ?_, DepthFirst.search_eq descending⟩
  · refine (List.perm_ext_iff_of_nodup ordered.nodup List.nodup_range).mpr fun routine => ?_
    rw [complete, List.mem_range]
  · intro caller callee called
    refine ordered.idxOf_lt ((complete caller).mpr ?_) called
    by_contra outside
    rw [callees, List.getElem?_eq_none (not_lt.mp outside)] at called
    cases called

/-- Four subroutines that share callees. Calls stand inside of loops, and lead to earlier and to
later places in the table. -/
def forwardCalls : ProgramGraph :=
  { main := [.call 3]
    routines :=
      [⟨.sequence [], [.loop 2 0 [.call 2], .call 1], 0⟩, ⟨.sequence [], [.call 2, .call 2], 0⟩,
        ⟨.sequence [], [.block []], 0⟩,
        ⟨.sequence [], [.loop 3 0 [.loop 2 0 [.call 0], .call 2]], 0⟩] }

theorem descending_forwardCalls :
    Descending forwardCalls.callees (fun routine => [2, 1, 0, 3].getD routine 0) 4 := by
  have below : ∀ routine, ∀ callee ∈ forwardCalls.callees routine,
      callee < 4 ∧ [2, 1, 0, 3].getD callee 0 < [2, 1, 0, 3].getD routine 0 := by
    intro routine
    match routine with
    | 0 => decide
    | 1 => decide
    | 2 => decide
    | 3 => decide
    | _ + 4 =>
      intro callee called
      cases called
  exact ⟨fun routine callee called => (below routine callee called).1,
    fun routine callee called => (below routine callee called).2⟩

theorem calleesFirst_topological_forwardCalls :
    forwardCalls.calleesFirst = [2, 1, 0, 3] ∧ DepthFirst.search forwardCalls = some [2, 1, 0, 3] :=
  ⟨by decide, (calleesFirst_topological forwardCalls descending_forwardCalls.inside
    descending_forwardCalls.acyclic).2.2⟩

end ProgramGraph

end PulseSequencer

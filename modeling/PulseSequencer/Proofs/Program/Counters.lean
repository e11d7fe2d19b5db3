import PulseSequencer.Proofs.Program.CallOrder
import PulseSequencer.Proofs.Program.Lowering

/-!
# Assigned loop counters

The counters of a graph are right if every loop and every call uses a counter below that of each
loop and subroutine around it. `Node.Fits` states this for nodes, and `Assigned` for a whole graph.

Results:
1. `assignAll_spec`: the counters given to nodes fit and change nothing else.
2. `assignCounters_outcome`: for a graph whose calls decrease a measure, assigning counters gives
   such a graph, or fails because there are too few counters. There is no other outcome.
3. `assignCounters_of_le`: a higher limit does not change the counters.
4. `GraphOf.assignCounters`: the graph of an element is such a graph, since a subroutine is larger
   than those it calls.
-/

namespace PulseSequencer

namespace Node

/-! ## Nodes up to their counters -/

mutual

/-- A node with the counters of its loops reset. -/
def bare : Node → Node
  | .block timestamps => .block timestamps
  | .loop times _ body => .loop times 0 (bareAll body)
  | .call routine => .call routine

def bareAll : List Node → List Node
  | [] => []
  | node :: rest => node.bare :: bareAll rest

end

mutual

/-- The loops and calls of a node use counters below `limit`, those inside of a loop counters below
that of the loop. -/
def Fits (counterOf : Nat → Option Nat) (limit : Nat) : Node → Prop
  | .block _ => True
  | .loop _ counter body => counter < limit ∧ FitsAll counterOf counter body
  | .call routine => ∃ counter, counterOf routine = some counter ∧ counter < limit

def FitsAll (counterOf : Nat → Option Nat) (limit : Nat) : List Node → Prop
  | [] => True
  | node :: rest => Fits counterOf limit node ∧ FitsAll counterOf limit rest

end

theorem Fits.mono {counterOf : Nat → Option Nat} {small large : Nat} {node : Node}
    (fits : Fits counterOf small node) (le : small ≤ large) : Fits counterOf large node := by
  cases node with
  | block timestamps => trivial
  | loop times counter body => exact ⟨lt_of_lt_of_le fits.1 le, fits.2⟩
  | call routine =>
    obtain ⟨counter, found, below⟩ := fits
    exact ⟨counter, found, lt_of_lt_of_le below le⟩

theorem FitsAll.mono {counterOf : Nat → Option Nat} {small large : Nat} {nodes : List Node}
    (fits : FitsAll counterOf small nodes) (le : small ≤ large) :
    FitsAll counterOf large nodes := by
  induction nodes with
  | nil => trivial
  | cons node rest ih => exact ⟨fits.1.mono le, ih fits.2⟩

theorem fitsAll_iff {counterOf : Nat → Option Nat} {limit : Nat} {nodes : List Node} :
    FitsAll counterOf limit nodes ↔ ∀ node ∈ nodes, Fits counterOf limit node := by
  induction nodes with
  | nil => simp [FitsAll]
  | cons node rest ih => rw [FitsAll, ih, List.forall_mem_cons]

mutual

/-- Counters fit as well once more of the subroutines have theirs. -/
theorem Fits.of_le {f g : Nat → Option Nat} {limit : Nat} {node : Node}
    (fits : Fits f limit node) (le : ∀ routine counter, f routine = some counter →
      g routine = some counter) : Fits g limit node := by
  match node, fits with
  | .block _, _ => trivial
  | .loop _ counter body, fits => exact ⟨fits.1, FitsAll.of_le fits.2 le⟩
  | .call routine, fits =>
    obtain ⟨counter, found, below⟩ := fits
    exact ⟨counter, le routine counter found, below⟩

theorem FitsAll.of_le {f g : Nat → Option Nat} {limit : Nat} {nodes : List Node}
    (fits : FitsAll f limit nodes) (le : ∀ routine counter, f routine = some counter →
      g routine = some counter) : FitsAll g limit nodes := by
  match nodes, fits with
  | [], _ => trivial
  | node :: rest, fits => exact ⟨Fits.of_le fits.1 le, FitsAll.of_le fits.2 le⟩

end

/-! ## Assignment to nodes -/

/-- The counter of a subroutine in a list of those known so far. -/
def counterIn (counters : List (Option Nat)) (routine : Nat) : Option Nat :=
  counters[routine]?.join

mutual

theorem assign_spec {counters : List (Option Nat)} {node result : Node} {occupied : Nat}
    (ok : assign counters node = .ok (result, occupied)) :
    result.bare = node.bare ∧ Fits (counterIn counters) occupied result := by
  match node, ok with
  | .block timestamps, ok =>
    simp only [assign, Except.ok.injEq, Prod.mk.injEq] at ok
    obtain ⟨rfl, rfl⟩ := ok
    exact ⟨rfl, trivial⟩
  | .loop times counter body, ok =>
    simp only [assign, Except.bind_eq_ok_iff, Except.pure_eq_ok, Except.ok.injEq,
      Prod.mk.injEq] at ok
    obtain ⟨⟨inner, used⟩, found, rfl, rfl⟩ := ok
    obtain ⟨same, fits⟩ := assignAll_spec found
    exact ⟨by rw [bare, bare, same], Nat.lt_succ_self _, fits⟩
  | .call routine, ok =>
    simp only [assign] at ok
    split at ok
    · next counter found =>
      simp only [Except.ok.injEq, Prod.mk.injEq] at ok
      obtain ⟨rfl, rfl⟩ := ok
      exact ⟨rfl, counter, by rw [counterIn, found, Option.join_some], Nat.lt_succ_self _⟩
    · cases ok

theorem assignAll_spec {counters : List (Option Nat)} {nodes result : List Node} {occupied : Nat}
    (ok : assignAll counters nodes = .ok (result, occupied)) :
    bareAll result = bareAll nodes ∧ FitsAll (counterIn counters) occupied result := by
  match nodes, ok with
  | [], ok =>
    simp only [assignAll, Except.ok.injEq, Prod.mk.injEq] at ok
    obtain ⟨rfl, rfl⟩ := ok
    exact ⟨rfl, trivial⟩
  | node :: rest, ok =>
    simp only [assignAll, Except.bind_eq_ok_iff, Except.pure_eq_ok, Except.ok.injEq,
      Prod.mk.injEq] at ok
    obtain ⟨⟨first, usedFirst⟩, foundFirst, ⟨others, usedRest⟩, foundRest, rfl, rfl⟩ := ok
    obtain ⟨sameFirst, fitsFirst⟩ := assign_spec foundFirst
    obtain ⟨sameRest, fitsRest⟩ := assignAll_spec foundRest
    refine ⟨by rw [bareAll, bareAll, sameFirst, sameRest], ?_, ?_⟩
    · exact fitsFirst.mono (le_max_left _ _)
    · exact fitsRest.mono (le_max_right _ _)

end

mutual

/-- Nodes get their counters once all subroutines they call have theirs. -/
theorem assign_ok {counters : List (Option Nat)} {node : Node}
    (known : ∀ routine ∈ node.calls, ∃ counter, counters[routine]? = some (some counter)) :
    ∃ result, assign counters node = .ok result := by
  match node, known with
  | .block timestamps, _ => exact ⟨_, rfl⟩
  | .loop times counter body, known =>
    rw [calls] at known
    obtain ⟨result, ok⟩ := assignAll_ok known
    exact ⟨_, by rw [assign, ok]; rfl⟩
  | .call routine, known =>
    obtain ⟨counter, found⟩ := known routine (by simp [calls])
    exact ⟨_, by rw [assign, found]⟩

theorem assignAll_ok {counters : List (Option Nat)} {nodes : List Node}
    (known : ∀ routine ∈ callsAll nodes, ∃ counter, counters[routine]? = some (some counter)) :
    ∃ result, assignAll counters nodes = .ok result := by
  match nodes, known with
  | [], _ => exact ⟨_, rfl⟩
  | node :: rest, known =>
    simp only [callsAll, List.mem_append] at known
    obtain ⟨first, okFirst⟩ := assign_ok fun routine called => known routine (.inl called)
    obtain ⟨others, okRest⟩ := assignAll_ok fun routine called => known routine (.inr called)
    exact ⟨_, by rw [assignAll, okFirst, okRest]; rfl⟩

end

end Node

/-! ## Assignment to a graph -/

/-- `assigned` is `original` with a body and a counter that fit. -/
structure Routine.AssignedFrom (counterOf : Nat → Option Nat) (limit : Nat)
    (original assigned : Routine) : Prop where
  source : assigned.source = original.source
  body : Node.bareAll assigned.body = Node.bareAll original.body
  below : assigned.counter < limit
  fits : Node.FitsAll counterOf assigned.counter assigned.body

theorem Routine.AssignedFrom.of_le {f g : Nat → Option Nat} {limit : Nat}
    {original assigned : Routine} (assignedFrom : Routine.AssignedFrom f limit original assigned)
    (le : ∀ routine counter, f routine = some counter → g routine = some counter) :
    Routine.AssignedFrom g limit original assigned :=
  ⟨assignedFrom.source, assignedFrom.body, assignedFrom.below, assignedFrom.fits.of_le le⟩

namespace ProgramGraph

/-- The counter of a subroutine of a table. -/
def counterOf (routines : List Routine) (index : Nat) : Option Nat :=
  routines[index]?.map Routine.counter

/-- `result` is `graph` with counters below `limit` that fit. -/
structure Assigned (graph result : ProgramGraph) (limit : Nat) : Prop where
  main : Node.bareAll result.main = Node.bareAll graph.main
  fits : Node.FitsAll (counterOf result.routines) limit result.main
  length : result.routines.length = graph.routines.length
  routine : ∀ (index : Nat) (routine : Routine), result.routines[index]? = some routine →
    ∃ original, graph.routines[index]? = some original ∧
      Routine.AssignedFrom (counterOf result.routines) limit original routine

/-- Every subroutine has its place in the assigned graph, with the same body up to counters. -/
theorem Assigned.bodies {graph result : ProgramGraph} {limit : Nat}
    (assigned : Assigned graph result limit) (index : Nat) (routine : Routine)
    (found : graph.routines[index]? = some routine) :
    ∃ routine', result.routines[index]? = some routine' ∧
      Node.bareAll routine'.body = Node.bareAll routine.body := by
  have inside := (List.getElem?_eq_some_iff.mp found).1
  rw [← assigned.length] at inside
  have found' := List.getElem?_eq_getElem inside
  obtain ⟨original, foundOriginal, assignedFrom⟩ := assigned.routine index _ found'
  obtain rfl : routine = original := Option.some.inj (found.symm.trans foundOriginal)
  exact ⟨_, found', assignedFrom.body⟩

/-- The state of the assignment after the subroutines `done`. -/
structure Progress (graph : ProgramGraph) (limit : Nat) (done : List Nat)
    (state : Assignment) : Prop where
  routines : state.routines.length = graph.routines.length
  counters : state.counters.length = graph.routines.length
  untouched : ∀ index, index ∉ done → state.routines[index]? = graph.routines[index]?
  unknown : ∀ index, index ∉ done → Node.counterIn state.counters index = none
  assigned : ∀ index ∈ done, ∃ original routine, graph.routines[index]? = some original ∧
    state.routines[index]? = some routine ∧ state.counters[index]? = some (some routine.counter) ∧
    Routine.AssignedFrom (Node.counterIn state.counters) limit original routine

section

variable {graph : ProgramGraph} {limit : Nat} {done : List Nat}
  {state : Assignment}

theorem Progress.start (graph : ProgramGraph) (limit : Nat) :
    Progress graph limit [] ⟨graph.routines, graph.routines.map fun _ => none⟩ := by
  refine ⟨rfl, by simp, fun _ _ => rfl, fun index _ => ?_, by simp⟩
  rw [Node.counterIn, List.getElem?_map]
  cases graph.routines[index]? <;> rfl

/-- The counters of the subroutines that are done are known. -/
theorem Progress.known (progress : Progress graph limit done state) {index : Nat}
    (present : index ∈ done) : ∃ counter, state.counters[index]? = some (some counter) := by
  obtain ⟨_, routine, _, _, found, _⟩ := progress.assigned index present
  exact ⟨routine.counter, found⟩

/-- Nodes that call only subroutines that are done get their counters, or need too many. -/
theorem Progress.assignNodes (progress : Progress graph limit done state) (group : String)
    {nodes : List Node}
    (callees : ∀ routine ∈ Node.callsAll nodes, routine ∈ done) :
    assignNodes group limit state.counters nodes = .error (.tooManyCounters group limit) ∨
    ∃ result occupied, assignNodes group limit state.counters nodes = .ok (result, occupied) ∧
      occupied ≤ limit ∧ Node.bareAll result = Node.bareAll nodes ∧
      Node.FitsAll (Node.counterIn state.counters) occupied result := by
  obtain ⟨⟨result, occupied⟩, ok⟩ :=
    Node.assignAll_ok fun routine called => progress.known (callees routine called)
  obtain ⟨same, fits⟩ := Node.assignAll_spec ok
  unfold ProgramGraph.assignNodes
  rw [ok]
  by_cases exceeds : limit < occupied
  · exact .inl (by simp only [if_pos exceeds])
  · exact .inr ⟨result, occupied, by simp only [if_neg exceeds], by omega, same, fits⟩

/-- The state after one more subroutine has its body and its counter. -/
theorem Progress.set (progress : Progress graph limit done state) {index counter : Nat}
    {original : Routine} {body : List Node} (fresh : index ∉ done)
    (found : graph.routines[index]? = some original) (below : counter < limit)
    (same : Node.bareAll body = Node.bareAll original.body)
    (fits : Node.FitsAll (Node.counterIn state.counters) counter body) :
    Progress graph limit (done ++ [index])
      ⟨state.routines.set index { original with body, counter },
        state.counters.set index (some counter)⟩ := by
  have inside : index < graph.routines.length := (List.getElem?_eq_some_iff.mp found).1
  -- Counters that were known stay what they are, since this subroutine had none.
  have le : ∀ routine value, Node.counterIn state.counters routine = some value →
      Node.counterIn (state.counters.set index (some counter)) routine = some value := by
    intro routine value known
    have other : index ≠ routine := by
      rintro rfl
      rw [progress.unknown index fresh] at known
      cases known
    rw [Node.counterIn, List.getElem?_set_ne other]
    exact known
  refine ⟨by simp [progress.routines], by simp [progress.counters], ?_, ?_, ?_⟩
  · intro other absent
    simp only [List.mem_append, List.mem_singleton, not_or] at absent
    rw [List.getElem?_set_ne (Ne.symm absent.2)]
    exact progress.untouched other absent.1
  · intro other absent
    simp only [List.mem_append, List.mem_singleton, not_or] at absent
    rw [Node.counterIn, List.getElem?_set_ne (Ne.symm absent.2)]
    exact progress.unknown other absent.1
  · intro other present
    rcases List.mem_append.mp present with old | new
    · have different : index ≠ other := fun equal => fresh (equal ▸ old)
      obtain ⟨before, routine, foundBefore, foundHere, known, assignedFrom⟩ :=
        progress.assigned other old
      refine ⟨before, routine, foundBefore, ?_, ?_, assignedFrom.of_le le⟩
      · rw [List.getElem?_set_ne different]
        exact foundHere
      · rw [List.getElem?_set_ne different]
        exact known
    · obtain rfl := List.mem_singleton.mp new
      refine ⟨original, { original with body, counter }, found, ?_, ?_, rfl, same, below,
        fits.of_le le⟩
      · rw [List.getElem?_set_self (by rw [progress.routines]; exact inside)]
      · rw [List.getElem?_set_self (by rw [progress.counters]; exact inside)]

/-- The next subroutine gets its counters after all those it calls, or needs too many. -/
theorem Progress.step (progress : Progress graph limit done state) (group : String) {index : Nat}
    (inside : index < graph.routines.length) (fresh : index ∉ done)
    (callees : ∀ callee ∈ graph.callees index, callee ∈ done) :
    assignRoutine group limit state index = .error (.tooManyCounters group limit) ∨
    ∃ next, assignRoutine group limit state index = .ok next ∧
      Progress graph limit (done ++ [index]) next := by
  obtain ⟨original, found⟩ : ∃ original, graph.routines[index]? = some original :=
    ⟨graph.routines[index], by simp [inside]⟩
  have foundHere : state.routines[index]? = some original := by
    rw [progress.untouched index fresh, found]
  have called : ∀ routine ∈ Node.callsAll original.body, routine ∈ done := by
    intro routine called
    refine callees routine ?_
    rw [ProgramGraph.callees, found]
    exact called
  rcases progress.assignNodes group called with tooMany |
    ⟨body, counter, ok, _, same, fits⟩
  · exact .inl (by simp only [assignRoutine, foundHere, tooMany, Except.error_bind])
  · by_cases exceeds : limit ≤ counter
    · left
      simp only [assignRoutine, foundHere, ok, Except.ok_bind, if_pos exceeds,
        Except.throw_eq_error, Except.error_bind]
    · refine .inr ⟨_, ?_, progress.set fresh found (by omega) same fits⟩
      simp only [assignRoutine, foundHere, ok, Except.ok_bind, if_neg exceeds, Except.pure_eq_ok]

/-- All subroutines of an order in which callees come first get their counters, or need too
many. -/
theorem Progress.fold (group : String) (limit : Nat) {order : List Nat}
    (ordered : CalleesBefore graph.callees order)
    (inside : ∀ index ∈ order, index < graph.routines.length) :
    order.foldlM (assignRoutine group limit) ⟨graph.routines, graph.routines.map fun _ => none⟩
      = .error (.tooManyCounters group limit) ∨
    ∃ state, order.foldlM (assignRoutine group limit)
        ⟨graph.routines, graph.routines.map fun _ => none⟩ = .ok state ∧
      Progress graph limit order state := by
  induction ordered with
  | nil => exact .inr ⟨_, rfl, .start graph limit⟩
  | @snoc order index ordered fresh callees ih =>
    rw [List.foldlM_append]
    rcases ih (fun other present => inside other (List.mem_append_left _ present)) with
      tooMany | ⟨state, ok, progress⟩
    · exact .inl (by rw [tooMany]; rfl)
    · rw [ok, Except.ok_bind, List.foldlM_cons]
      rcases progress.step group (inside index (by simp)) fresh callees with
        tooMany | ⟨next, okNext, progressNext⟩
      · exact .inl (by rw [tooMany]; rfl)
      · exact .inr ⟨next, by rw [okNext]; rfl, progressNext⟩

end

/-- With calls that decrease a measure, every loop and subroutine gets a counter that fits, or there
are too few counters. No subroutine is called before it has its counter. -/
theorem assignCounters_outcome {graph : ProgramGraph} {measure : Nat → Nat}
    (descending : Descending graph.callees measure graph.routines.length)
    (callees : ∀ routine ∈ Node.callsAll graph.main, routine < graph.routines.length)
    (group : String) (limit : Nat) :
    graph.assignCounters group limit = .error (.tooManyCounters group limit) ∨
    ∃ result, graph.assignCounters group limit = .ok result ∧ Assigned graph result limit := by
  obtain ⟨ordered, complete⟩ := calleesFirst_spec descending
  simp only [assignCounters]
  rcases Progress.fold group limit ordered
    (fun index present => (complete index).mp present) with tooMany | ⟨state, ok, progress⟩
  · exact .inl (by rw [tooMany]; rfl)
  · rw [ok, Except.ok_bind]
    rcases progress.assignNodes group
      (fun routine called => (complete routine).mpr (callees routine called)) with
      tooMany | ⟨main, occupied, okMain, within, same, fits⟩
    · exact .inl (by rw [tooMany]; rfl)
    · rw [okMain]
      -- At the end the counters known are those of the table.
      have le : ∀ index counter, Node.counterIn state.counters index = some counter →
          counterOf state.routines index = some counter := by
        intro index counter known
        by_cases present : index ∈ graph.calleesFirst
        · obtain ⟨_, routine, _, found, foundCounter, _⟩ := progress.assigned index present
          rw [Node.counterIn, foundCounter] at known
          rw [counterOf, found]
          exact known
        · rw [progress.unknown index present] at known
          cases known
      refine .inr ⟨⟨main, state.routines⟩, rfl, same, (fits.mono within).of_le le,
        progress.routines, ?_⟩
      intro index routine found
      have inside : index < graph.routines.length := by
        rw [← progress.routines]
        exact (List.getElem?_eq_some_iff.mp found).1
      obtain ⟨original, routine', foundOriginal, found', _, assignedFrom⟩ :=
        progress.assigned index ((complete index).mpr inside)
      obtain rfl : routine = routine' := Option.some.inj (found.symm.trans found')
      exact ⟨original, foundOriginal, assignedFrom.of_le le⟩

/-! ## Higher limits

Counters are taken from below. A limit only decides whether there are enough of them, and the name
of a group occurs in errors only. -/

theorem assignNodes_of_le {group : String} {limit larger : Nat} {counters : List (Option Nat)}
    {nodes : List Node} {result : List Node × Nat}
    (ok : assignNodes group limit counters nodes = .ok result) (le : limit ≤ larger)
    (other : String) : assignNodes other larger counters nodes = .ok result := by
  unfold assignNodes at ok ⊢
  split at ok
  · cases ok
  · split at ok
    · cases ok
    · next within =>
      rw [if_neg fun tooMany => within (le.trans_lt tooMany)]
      exact ok

theorem assignRoutine_of_le {group : String} {limit larger : Nat} {assignment result : Assignment}
    {index : Nat} (ok : assignRoutine group limit assignment index = .ok result)
    (le : limit ≤ larger) (other : String) :
    assignRoutine other larger assignment index = .ok result := by
  unfold assignRoutine at ok ⊢
  split at ok
  · cases ok
  · obtain ⟨⟨body, counter⟩, assigned, ok⟩ := Except.bind_eq_ok_iff.mp ok
    refine Except.bind_eq_ok_iff.mpr ⟨_, assignNodes_of_le assigned le other, ?_⟩
    dsimp only at ok ⊢
    split at ok
    · cases ok
    · next within =>
      rw [if_neg fun tooMany => within (le.trans tooMany)]
      exact ok

/-- Counters that were assigned are the same with a higher limit. -/
theorem assignCounters_of_le {graph result : ProgramGraph} {group : String} {limit larger : Nat}
    (ok : graph.assignCounters group limit = .ok result) (le : limit ≤ larger) (other : String) :
    graph.assignCounters other larger = .ok result := by
  obtain ⟨assignment, routines, ok⟩ := Except.bind_eq_ok_iff.mp ok
  obtain ⟨main, assigned, ok⟩ := Except.bind_eq_ok_iff.mp ok
  refine Except.bind_eq_ok_iff.mpr ⟨assignment, ?_, ?_⟩
  · exact Except.foldlM_of_step (fun step => assignRoutine_of_le step le other) routines
  · exact Except.bind_eq_ok_iff.mpr ⟨main, assignNodes_of_le assigned le other, ok⟩

/-! ## Graphs of elements -/

/-- The size of the element that a subroutine was made from. -/
def sourceSize (routines : List Routine) (index : Nat) : Nat :=
  (routines[index]?.map fun routine => routine.source.size).getD 0

/-- Calls out of a lowered element go to subroutines of the table with smaller sources. -/
theorem sourceSize_lt {routines : List Routine} {e : Element} {nodes : List Node}
    (lowered : Lowered (routines.map Routine.source) e nodes) {callee : Nat}
    (called : callee ∈ Node.callsAll nodes) :
    callee < routines.length ∧ sourceSize routines callee < e.size := by
  obtain ⟨source, found, smaller⟩ := lowered.size_lt called
  rw [List.getElem?_map, Option.map_eq_some_iff] at found
  obtain ⟨routine, found, rfl⟩ := found
  refine ⟨(List.getElem?_eq_some_iff.mp found).1, ?_⟩
  rw [sourceSize, found]
  exact smaller

theorem GraphOf.descending {e : Element} {graph : ProgramGraph} (graphOf : GraphOf e graph) :
    Descending graph.callees (sourceSize graph.routines) graph.routines.length := by
  have step : ∀ routine, ∀ callee ∈ graph.callees routine, callee < graph.routines.length ∧
      sourceSize graph.routines callee < sourceSize graph.routines routine := by
    intro index callee called
    unfold callees at called
    split at called
    · next routine found =>
      obtain ⟨nodes, lowered, same⟩ := (graphOf.filled routine (List.mem_of_getElem? found)).body
      rw [same, Node.callsAll_joinBlocks] at called
      have := sourceSize_lt lowered called
      rwa [sourceSize.eq_1 _ index, found]
    · cases called
  exact ⟨fun routine callee called => (step routine callee called).1,
    fun routine callee called => (step routine callee called).2⟩

/-- The loops and subroutines of an element get counters that fit, or there are too few. -/
theorem GraphOf.assignCounters {e : Element} {graph : ProgramGraph} (graphOf : GraphOf e graph)
    (group : String) (limit : Nat) :
    graph.assignCounters group limit = .error (.tooManyCounters group limit) ∨
    ∃ result, graph.assignCounters group limit = .ok result ∧ Assigned graph result limit := by
  refine assignCounters_outcome graphOf.descending (fun routine called => ?_) group limit
  obtain ⟨nodes, lowered, same⟩ := graphOf.main
  rw [same, Node.callsAll_joinBlocks] at called
  exact (sourceSize_lt lowered called).1

end ProgramGraph

end PulseSequencer

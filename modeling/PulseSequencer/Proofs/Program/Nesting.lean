import PulseSequencer.Proofs.Program.Allocation
import PulseSequencer.Proofs.Program.Subroutines
import PulseSequencer.Proofs.Program.Worklist

/-!
# Nesting and loop counters

Loops and subroutines nest. The height of an element is the depth of that nesting, where the body of
a subroutine counts at every place where it is called. Counters are assigned to the nodes of a
graph, in which a subroutine stands once, but the counters are heights of elements all the same.

Results:
1. `Lowered.assignAll`: the nodes of an element occupy as many counters as the element is high, if
   the subroutines they call have the heights of their bodies as counters.
2. `Exact.fold`: all subroutines get the heights of their bodies, one after the other, unless one is
   too high.
3. `assignCounters_exact`: an element fits if and only if its height does. Then each loop and each
   subroutine has the height of its body as its counter, which is above all counters used inside.
   The graph built from tasks and the two passes of the allocation come to the same answer.
-/

namespace PulseSequencer

/-! ## The height of an element -/

namespace Element

mutual

/-- How deep loops and subroutines are nested. -/
def height : Element → Nat
  | .timestamp _ => 0
  | .trigger => 0
  | .sequence children => heightAll children
  | .parallel children => heightAll children
  | .repeated body _ => body.height + 1
  | .subroutine body => body.height + 1

def heightAll : List Element → Nat
  | [] => 0
  | element :: rest => max element.height (heightAll rest)

end

theorem Alike.height_eq {a b : Element} (alike : Alike a b) : a.height = b.height := by
  induction alike with
  | timestamp _ => rfl
  | trigger => rfl
  | emptySequence => rfl
  | emptyParallel => rfl
  | sequence _ _ ihFirst ihRest =>
    simp only [height] at ihRest
    simp only [height, heightAll, ihFirst, ihRest]
  | parallel _ _ ihFirst ihRest =>
    simp only [height] at ihRest
    simp only [height, heightAll, ihFirst, ihRest]
  | repeated times _ ih => rw [height, height, ih]
  | subroutine _ _ ih => rw [height, height, ih]

theorem StandsFor.height_eq {source body : Element} (same : source.StandsFor body) :
    source.height = body.height :=
  same.congr Alike.height_eq

mutual

/-- A subroutine inside an element is one level of its nesting. -/
theorem height_lt_of_mem_bodies {e body : Element} (inside : body ∈ e.bodies) :
    body.height < e.height := by
  match e, inside with
  | .sequence children, inside => exact height_lt_of_mem_bodiesAll inside
  | .parallel children, inside => exact height_lt_of_mem_bodiesAll inside
  | .repeated inner times, inside =>
    exact Nat.lt_succ_of_lt (height_lt_of_mem_bodies (e := inner) inside)
  | .subroutine inner, inside =>
    rcases List.mem_cons.mp inside with rfl | deeper
    · exact Nat.lt_succ_self _
    · exact Nat.lt_succ_of_lt (height_lt_of_mem_bodies deeper)

theorem height_lt_of_mem_bodiesAll {elements : List Element} {body : Element}
    (inside : body ∈ bodiesAll elements) : body.height < heightAll elements := by
  match elements, inside with
  | element :: rest, inside =>
    rcases List.mem_append.mp inside with inFirst | inRest
    · exact lt_of_lt_of_le (height_lt_of_mem_bodies inFirst) (le_max_left _ _)
    · exact lt_of_lt_of_le (height_lt_of_mem_bodiesAll inRest) (le_max_right _ _)

end

end Element

/-! ## Nodes with their counters -/

/-- `Counted sources e nodes`: the nodes of `e`, blocks not yet joined, where every loop has the
height of its body as its counter. -/
inductive Counted (sources : List Element) : Element → List Node → Prop
  | timestamp (t : Timestamp) : Counted sources (.timestamp t) [.block [t]]
  | nil : Counted sources (.sequence []) []
  | cons {e : Element} {es : List Element} {first rest : List Node} :
      Counted sources e first → Counted sources (.sequence es) rest →
      Counted sources (.sequence (e :: es)) (first ++ rest)
  | repeated {body : Element} {nodes : List Node} (times : UInt32) :
      Counted sources body nodes →
      Counted sources (.repeated body times) [.loop times body.height (Node.joinBlocks nodes)]
  | subroutine {source body : Element} {index : Nat} :
      sources[index]? = some source → source.StandsFor body →
      Counted sources (.subroutine body) [.call index]

namespace Node

variable {counters : List (Option Nat)}

theorem assignAll_append {first second first' second' : List Node} {m n : Nat}
    (ok : assignAll counters first = .ok (first', m))
    (okSecond : assignAll counters second = .ok (second', n)) :
    assignAll counters (first ++ second) = .ok (first' ++ second', max m n) := by
  induction first generalizing first' m with
  | nil =>
    simp only [assignAll, Except.ok.injEq, Prod.mk.injEq] at ok
    obtain ⟨rfl, rfl⟩ := ok
    simpa using okSecond
  | cons node rest ih =>
    simp only [assignAll, Except.bind_eq_ok_iff, Except.pure_eq_ok, Except.ok.injEq,
      Prod.mk.injEq] at ok
    obtain ⟨⟨node', k⟩, okNode, ⟨rest', l⟩, okRest, rfl, rfl⟩ := ok
    simp only [List.cons_append, assignAll, okNode, ih okRest, Except.ok_bind, Except.pure_eq_ok,
      max_assoc]

/-- Only blocks become blocks. -/
theorem eq_block_of_bare_eq {node : Node} {timestamps : List Timestamp}
    (same : (block timestamps).bare = node.bare) : node = .block timestamps := by
  cases node with
  | block others =>
    simp only [bare, block.injEq] at same
    rw [same]
  | loop times counter body => simp [bare] at same
  | call routine => simp [bare] at same

theorem eq_block_of_bareAll_eq {nodes rest : List Node} {timestamps : List Timestamp}
    (same : bareAll (.block timestamps :: rest) = bareAll nodes) :
    ∃ others, nodes = .block timestamps :: others := by
  cases nodes with
  | nil => simp [bareAll] at same
  | cons node others =>
    simp only [bareAll, List.cons.injEq] at same
    exact ⟨others, by rw [eq_block_of_bare_eq same.1]⟩

/-- Joining blocks commutes with the assignment, because blocks occupy no counters. -/
theorem assignAll_cons {node node' : Node} {rest rest' : List Node} {m n : Nat}
    (ok : assign counters node = .ok (node', m))
    (okRest : assignAll counters rest = .ok (rest', n)) :
    assignAll counters (cons node rest) = .ok (cons node' rest', max m n) := by
  have sameNode := (assign_spec ok).1
  have sameRest := (assignAll_spec okRest).1
  unfold cons
  split
  · next first second others =>
    simp only [assign, Except.ok.injEq, Prod.mk.injEq] at ok
    obtain ⟨rfl, rfl⟩ := ok
    simp only [assignAll, assign, Except.ok_bind, Except.bind_eq_ok_iff, Except.pure_eq_ok,
      Except.ok.injEq, Prod.mk.injEq] at okRest
    obtain ⟨⟨others', k⟩, okOthers, rfl, rfl⟩ := okRest
    simp [assignAll, assign, okOthers]
  · next apart =>
    have plain : ∀ first second others, node' = .block first → rest' = .block second :: others →
        False := by
      rintro first second others rfl rfl
      obtain ⟨_, rfl⟩ := eq_block_of_bareAll_eq sameRest
      exact apart _ _ _ (eq_block_of_bare_eq sameNode) rfl
    split
    · next first second others => exact (plain _ _ _ rfl rfl).elim
    · simp only [assignAll, ok, okRest, Except.ok_bind, Except.pure_eq_ok]

theorem assignAll_joinBlocks {nodes nodes' : List Node} {n : Nat}
    (ok : assignAll counters nodes = .ok (nodes', n)) :
    assignAll counters (joinBlocks nodes) = .ok (joinBlocks nodes', n) := by
  induction nodes generalizing nodes' n with
  | nil =>
    simp only [assignAll, Except.ok.injEq, Prod.mk.injEq] at ok
    obtain ⟨rfl, rfl⟩ := ok
    rfl
  | cons node rest ih =>
    simp only [assignAll, Except.bind_eq_ok_iff, Except.pure_eq_ok, Except.ok.injEq,
      Prod.mk.injEq] at ok
    obtain ⟨⟨node', k⟩, okNode, ⟨rest', l⟩, okRest, rfl, rfl⟩ := ok
    exact assignAll_cons okNode (ih okRest)

end Node

/-- The nodes of an element occupy as many counters as the element is high. -/
theorem Lowered.assignAll {sources : List Element} {counters : List (Option Nat)} {e : Element}
    {nodes : List Node} (lowered : Lowered sources e nodes)
    (known : ∀ index ∈ Node.callsAll nodes, ∀ source, sources[index]? = some source →
      counters[index]? = some (some source.height)) :
    ∃ nodes', Node.assignAll counters nodes = .ok (nodes', e.height) ∧
      Counted sources e nodes' := by
  induction lowered with
  | timestamp t => exact ⟨_, rfl, .timestamp t⟩
  | nil => exact ⟨_, rfl, .nil⟩
  | cons _ _ ihFirst ihRest =>
    simp only [Node.callsAll_append, List.mem_append] at known
    obtain ⟨first, ok, counted⟩ := ihFirst fun index called => known index (.inl called)
    obtain ⟨rest, okRest, countedRest⟩ := ihRest fun index called => known index (.inr called)
    exact ⟨first ++ rest, Node.assignAll_append ok okRest, .cons counted countedRest⟩
  | @repeated body nodes times _ ih =>
    simp only [Node.callsAll, Node.calls, Node.callsAll_joinBlocks, List.append_nil] at known
    obtain ⟨inner, ok, counted⟩ := ih known
    refine ⟨_, ?_, .repeated times counted⟩
    simp [Node.assignAll, Node.assign, Node.assignAll_joinBlocks ok, Element.height]
  | @subroutine source body index found same =>
    have counter := known index (by simp [Node.callsAll, Node.calls]) source found
    refine ⟨_, ?_, .subroutine found same⟩
    simp [Node.assignAll, Node.assign, counter, Element.height, same.height_eq]

/-! ## Graphs with their counters -/

/-- A subroutine whose counter is the height of its source, as is that of every loop in its body. -/
structure Routine.ByHeight (sources : List Element) (routine : Routine) : Prop where
  counter : routine.counter = routine.source.height
  body : ∃ nodes, Counted sources routine.source nodes ∧ routine.body = Node.joinBlocks nodes

namespace ProgramGraph

/-- The graph of `e`, where every loop and every subroutine has the height of its body as its
counter. -/
structure ByHeight (e : Element) (graph : ProgramGraph) : Prop where
  sources : graph.routines.map Routine.source = Element.distinct e.bodies
  main : ∃ nodes, Counted (graph.routines.map Routine.source) e nodes ∧
    graph.main = Node.joinBlocks nodes
  routine : ∀ routine ∈ graph.routines, routine.ByHeight (graph.routines.map Routine.source)

/-- The state of the assignment after the subroutines `done`, which have their heights. -/
structure Exact (graph : ProgramGraph) (limit : Nat) (done : List Nat) (state : Assignment) : Prop
    extends Progress graph limit done state where
  byHeight : ∀ index ∈ done, ∃ routine, state.routines[index]? = some routine ∧
    routine.ByHeight (graph.routines.map Routine.source)

section

variable {graph : ProgramGraph} {limit : Nat} {done : List Nat} {state : Assignment}

/-- Subroutines keep their sources. -/
theorem Progress.sources (progress : Progress graph limit done state) :
    state.routines.map Routine.source = graph.routines.map Routine.source := by
  refine List.ext_getElem? fun index => ?_
  rw [List.getElem?_map, List.getElem?_map]
  by_cases present : index ∈ done
  · obtain ⟨original, routine, foundOriginal, found, _, assignedFrom⟩ :=
      progress.assigned index present
    rw [found, foundOriginal, Option.map_some, Option.map_some, assignedFrom.source]
  · rw [progress.untouched index present]

/-- The counter known of a subroutine is the height of its source. -/
theorem Exact.counter_eq (exact : Exact graph limit done state) {index : Nat}
    (present : index ∈ done) {source : Element}
    (found : (graph.routines.map Routine.source)[index]? = some source) :
    state.counters[index]? = some (some source.height) := by
  obtain ⟨original, routine, foundOriginal, foundRoutine, known, assignedFrom⟩ :=
    exact.assigned index present
  obtain ⟨routine', found', byHeight⟩ := exact.byHeight index present
  obtain rfl : routine = routine' := Option.some.inj (foundRoutine.symm.trans found')
  rw [List.getElem?_map, foundOriginal, Option.map_some, Option.some.injEq] at found
  rw [known, byHeight.counter, assignedFrom.source, found]

/-- The nodes of an element that calls only subroutines that are done occupy its height. -/
theorem Exact.assignAll (exact : Exact graph limit done state) {e : Element} {nodes : List Node}
    (lowered : Lowered (graph.routines.map Routine.source) e nodes)
    (callees : ∀ index ∈ Node.callsAll nodes, index ∈ done) :
    ∃ nodes', Node.assignAll state.counters (Node.joinBlocks nodes)
        = .ok (Node.joinBlocks nodes', e.height) ∧
      Counted (graph.routines.map Routine.source) e nodes' := by
  obtain ⟨nodes', ok, counted⟩ := lowered.assignAll fun index called source found =>
    exact.counter_eq (callees index called) found
  exact ⟨nodes', Node.assignAll_joinBlocks ok, counted⟩

/-- The next subroutine gets the height of its source, or is too high. -/
theorem Exact.step (exact : Exact graph limit done state) (group : String) {index : Nat}
    {original : Routine} (found : graph.routines[index]? = some original)
    (filled : original.Filled (graph.routines.map Routine.source)) (fresh : index ∉ done)
    (callees : ∀ callee ∈ graph.callees index, callee ∈ done) :
    (limit ≤ original.source.height ∧
      assignRoutine group limit state index = .error (.tooManyCounters group limit)) ∨
    ∃ next, assignRoutine group limit state index = .ok next ∧
      Exact graph limit (done ++ [index]) next := by
  obtain ⟨nodes, lowered, body⟩ := filled.body
  have called : ∀ callee ∈ Node.callsAll nodes, callee ∈ done := by
    intro callee called
    refine callees callee ?_
    rw [ProgramGraph.callees, found]
    dsimp only
    rwa [body, Node.callsAll_joinBlocks]
  obtain ⟨nodes', ok, counted⟩ := exact.assignAll lowered called
  rw [← body] at ok
  obtain ⟨same, fits⟩ := Node.assignAll_spec ok
  have foundHere : state.routines[index]? = some original := by
    rw [exact.untouched index fresh, found]
  by_cases high : limit ≤ original.source.height
  · refine .inl ⟨high, ?_⟩
    simp only [assignRoutine, foundHere, assignNodes, ok]
    split
    · rfl
    · simp only [Except.ok_bind, if_pos high, Except.throw_eq_error, Except.error_bind]
  · have within : ¬ limit < original.source.height := by omega
    refine .inr ⟨_, ?_, exact.toProgress.set fresh found (by omega) same fits, ?_⟩
    · simp only [assignRoutine, foundHere, assignNodes, ok, if_neg within, Except.ok_bind,
        if_neg high, Except.pure_eq_ok]
    · intro other present
      rcases List.mem_append.mp present with old | new
      · have different : index ≠ other := fun equal => fresh (equal ▸ old)
        dsimp only
        rw [List.getElem?_set_ne different]
        exact exact.byHeight other old
      · obtain rfl := List.mem_singleton.mp new
        refine ⟨_, List.getElem?_set_self ?_, rfl, nodes', counted, rfl⟩
        exact (List.getElem?_eq_some_iff.mp foundHere).1

/-- All subroutines of an order in which callees come first get their heights, unless one of them
is too high. -/
theorem Exact.fold (group : String) (limit : Nat) {order : List Nat}
    (ordered : CalleesBefore graph.callees order)
    (filled : ∀ routine ∈ graph.routines, routine.Filled (graph.routines.map Routine.source))
    (inside : ∀ index ∈ order, index < graph.routines.length) :
    (order.foldlM (assignRoutine group limit) ⟨graph.routines, graph.routines.map fun _ => none⟩
        = .error (.tooManyCounters group limit) ∧
      ∃ routine ∈ graph.routines, limit ≤ routine.source.height) ∨
    ∃ state, order.foldlM (assignRoutine group limit)
        ⟨graph.routines, graph.routines.map fun _ => none⟩ = .ok state ∧
      Exact graph limit order state := by
  induction ordered with
  | nil => exact .inr ⟨_, rfl, .start graph limit, by simp⟩
  | @snoc order index ordered fresh callees ih =>
    rw [List.foldlM_append]
    rcases ih (fun other present => inside other (List.mem_append_left _ present)) with
      ⟨tooMany, high⟩ | ⟨state, ok, exact⟩
    · exact .inl ⟨by rw [tooMany]; rfl, high⟩
    · have found := List.getElem?_eq_getElem (inside index (by simp))
      have present := List.mem_of_getElem? found
      rw [ok, Except.ok_bind, List.foldlM_cons]
      rcases exact.step group found (filled _ present) fresh callees with
        ⟨high, tooMany⟩ | ⟨next, okNext, exactNext⟩
      · exact .inl ⟨by rw [tooMany]; rfl, _, present, high⟩
      · exact .inr ⟨next, by rw [okNext]; rfl, exactNext⟩

end

/-- The graph of an element gets its counters if the element is not too high. -/
theorem assignCounters_of_height {e : Element} {graph : ProgramGraph} (ok : ofElement e = .ok graph)
    (group : String) (limit : Nat) :
    (limit < e.height ∧ graph.assignCounters group limit = .error (.tooManyCounters group limit)) ∨
    ∃ result, e.height ≤ limit ∧ graph.assignCounters group limit = .ok result ∧
      ByHeight e result := by
  have graphOf := ofElement_spec ok
  obtain ⟨ordered, complete⟩ := calleesFirst_spec graphOf.descending
  simp only [assignCounters]
  rcases Exact.fold group limit ordered graphOf.filled
    (fun index present => (complete index).mp present) with
    ⟨tooMany, routine, present, high⟩ | ⟨state, okFold, exact⟩
  · -- A subroutine that is too high makes the element too high.
    have source : routine.source ∈ Element.distinct e.bodies := by
      rw [← ofElement_sources ok]
      exact List.mem_map_of_mem present
    have below := Element.height_lt_of_mem_bodies (Element.mem_of_mem_distinct source)
    exact .inl ⟨by omega, by rw [tooMany]; rfl⟩
  · obtain ⟨nodes, lowered, main⟩ := graphOf.main
    obtain ⟨nodes', okMain, counted⟩ := exact.assignAll lowered fun index called =>
      (complete index).mpr (sourceSize_lt lowered called).1
    simp only [okFold, Except.ok_bind, assignNodes, main, okMain]
    by_cases high : limit < e.height
    · exact .inl ⟨high, by simp only [if_pos high, Except.error_bind]⟩
    · refine .inr ⟨⟨Node.joinBlocks nodes', state.routines⟩, by omega,
        by simp only [if_neg high, Except.ok_bind, Except.pure_eq_ok], ?_⟩
      have sources := exact.sources
      refine ⟨sources.trans (ofElement_sources ok), ⟨nodes', sources ▸ counted, rfl⟩, ?_⟩
      intro routine present
      obtain ⟨index, inside, found⟩ := List.mem_iff_getElem.mp present
      have done : index ∈ graph.calleesFirst := by
        rw [complete, ← exact.routines]
        exact inside
      obtain ⟨routine', found', byHeight⟩ := exact.byHeight index done
      rw [List.getElem?_eq_getElem inside, found, Option.some.injEq] at found'
      subst found'
      exact sources ▸ byHeight

/-! ## Counters inside of others -/

/-- A counter that playing the nodes uses: that of a loop at any depth or of a subroutine called,
or one used inside of them. -/
inductive Uses (routines : List Routine) : List Node → Nat → Prop
  | loop {nodes body : List Node} {times : UInt32} {counter : Nat} :
      .loop times counter body ∈ nodes → Uses routines nodes counter
  | inLoop {nodes body : List Node} {times : UInt32} {outer counter : Nat} :
      .loop times outer body ∈ nodes → Uses routines body counter → Uses routines nodes counter
  | call {nodes : List Node} {index : Nat} {routine : Routine} :
      .call index ∈ nodes → routines[index]? = some routine →
      Uses routines nodes routine.counter
  | inRoutine {nodes : List Node} {index counter : Nat} {routine : Routine} :
      .call index ∈ nodes → routines[index]? = some routine →
      Uses routines routine.body counter → Uses routines nodes counter

/-- A loop in nodes, at any depth. -/
inductive LoopIn : List Node → Nat → List Node → Prop
  | here {nodes body : List Node} {times : UInt32} {counter : Nat} :
      .loop times counter body ∈ nodes → LoopIn nodes counter body
  | deeper {nodes outerBody body : List Node} {times : UInt32} {outer counter : Nat} :
      .loop times outer outerBody ∈ nodes → LoopIn outerBody counter body →
      LoopIn nodes counter body

/-- Nodes in which the counter of every loop is above all counters used in its body. -/
def LoopsAbove (routines : List Routine) (nodes : List Node) : Prop :=
  ∀ counter body, LoopIn nodes counter body → ∀ used, Uses routines body used → used < counter

/-- The counter of every loop and every subroutine is above all counters used in its body. -/
structure Nested (graph : ProgramGraph) : Prop where
  main : LoopsAbove graph.routines graph.main
  loops : ∀ routine ∈ graph.routines, LoopsAbove graph.routines routine.body
  routine : ∀ routine ∈ graph.routines, ∀ used,
    Uses graph.routines routine.body used → used < routine.counter

section

variable {routines : List Routine}

/-- In nodes that fit, all counters used are below the limit. -/
theorem Uses.lt {nodes : List Node} {used limit : Nat} (uses : Uses routines nodes used)
    (fits : Node.FitsAll (counterOf routines) limit nodes)
    (fitting : ∀ routine ∈ routines,
      Node.FitsAll (counterOf routines) routine.counter routine.body) : used < limit := by
  induction uses generalizing limit with
  | loop present => exact (Node.fitsAll_iff.mp fits _ present).1
  | inLoop present _ ih =>
    obtain ⟨below, fitsBody⟩ := Node.fitsAll_iff.mp fits _ present
    exact lt_trans (ih fitsBody) below
  | call present found =>
    obtain ⟨counter, known, below⟩ := Node.fitsAll_iff.mp fits _ present
    rw [counterOf, found, Option.map_some, Option.some.injEq] at known
    exact known ▸ below
  | inRoutine present found _ ih =>
    obtain ⟨counter, known, below⟩ := Node.fitsAll_iff.mp fits _ present
    rw [counterOf, found, Option.map_some, Option.some.injEq] at known
    exact lt_trans (ih (fitting _ (List.mem_of_getElem? found))) (known ▸ below)

theorem LoopIn.fitsAll {nodes body : List Node} {counter : Nat} (inside : LoopIn nodes counter body)
    {counterOf : Nat → Option Nat} {limit : Nat} (fits : Node.FitsAll counterOf limit nodes) :
    Node.FitsAll counterOf counter body := by
  induction inside generalizing limit with
  | here present => exact (Node.fitsAll_iff.mp fits _ present).2
  | deeper present _ ih => exact ih (Node.fitsAll_iff.mp fits _ present).2

end

theorem Assigned.nested {graph result : ProgramGraph} {limit : Nat}
    (assigned : Assigned graph result limit) : Nested result := by
  have fitting : ∀ routine ∈ result.routines,
      Node.FitsAll (counterOf result.routines) routine.counter routine.body := by
    intro routine present
    obtain ⟨index, found⟩ := List.mem_iff_getElem?.mp present
    obtain ⟨_, _, assignedFrom⟩ := assigned.routine index routine found
    exact assignedFrom.fits
  have above : ∀ {nodes : List Node} {limit : Nat},
      Node.FitsAll (counterOf result.routines) limit nodes → LoopsAbove result.routines nodes :=
    fun fits counter body inside used uses => uses.lt (inside.fitsAll fits) fitting
  exact ⟨above assigned.fits, fun routine present => above (fitting routine present),
    fun routine present used uses => uses.lt (fitting routine present) fitting⟩

/-- An element of which all parts have instructions has a graph. Its loops and subroutines get
counters if and only if its height is within the limit, and they are the heights of the bodies. The
passes with a stack build this graph and assign these counters. -/
theorem assignCounters_exact {e : Element} (supported : e.unsupported = none) (group : String)
    (limit : Nat) :
    ∃ graph, ofElement e = .ok graph ∧ Worklist.build e = .ok graph ∧
      Allocation.assignCounters graph group limit
        = (graph.assignCounters group limit).mapError .reported ∧
      ((∃ result, graph.assignCounters group limit = .ok result) ↔ e.height ≤ limit) ∧
      (limit < e.height →
        graph.assignCounters group limit = .error (.tooManyCounters group limit)) ∧
      ∀ result, graph.assignCounters group limit = .ok result →
        ByHeight e result ∧ Nested result := by
  obtain ⟨graph, ok⟩ := ofElement_supported supported
  refine ⟨graph, ok, by rw [Worklist.build_eq, ok]; rfl,
    (ofElement_spec ok).allocation_eq group limit, ?_⟩
  rcases assignCounters_of_height ok group limit with ⟨high, tooMany⟩ |
    ⟨result, within, assigned, byHeight⟩
  · simp [tooMany, high]
  · refine ⟨by simp [assigned, within], fun high => by omega, fun other okOther => ?_⟩
    obtain rfl : result = other := Except.ok.inj (assigned.symm.trans okOther)
    rcases (ofElement_spec ok).assignCounters group limit with tooMany | ⟨result', ok', fits⟩
    · rw [assigned] at tooMany
      cases tooMany
    · obtain rfl : result = result' := Except.ok.inj (assigned.symm.trans ok')
      exact ⟨byHeight, fits.nested⟩

/-- A loop around two calls of a subroutine that is a loop. -/
def loopOfCalls : Element :=
  let second : Element := .timestamp (.second (.ofLevel 0 (some true)))
  let twice : Element := .subroutine (.repeated second 2)
  .repeated (.sequence [second, twice, twice]) 3

theorem assignCounters_exact_loopOfCalls :
    loopOfCalls.unsupported = none ∧ loopOfCalls.height = 3 ∧
    ∃ graph, ofElement loopOfCalls = .ok graph ∧ Worklist.build loopOfCalls = .ok graph ∧
      Allocation.assignCounters graph "board" 2 = .error (.reported (.tooManyCounters "board" 2)) ∧
      ∃ result, Allocation.assignCounters graph "board" 3 = .ok result ∧
        ByHeight loopOfCalls result ∧ Nested result := by
  have supported : loopOfCalls.unsupported = none := by rfl
  obtain ⟨graph, ok, built, passes, _, tooMany, _⟩ := assignCounters_exact supported "board" 2
  obtain ⟨graph', ok', _, passes', fits, _, exact⟩ := assignCounters_exact supported "board" 3
  obtain rfl : graph = graph' := Except.ok.inj (ok.symm.trans ok')
  obtain ⟨result, assigned⟩ := fits.mpr (by decide)
  rw [tooMany (by decide)] at passes
  rw [assigned] at passes'
  exact ⟨supported, by rfl, graph, ok, built, passes, result, passes', exact result assigned⟩

end ProgramGraph

end PulseSequencer

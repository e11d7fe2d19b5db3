import PulseSequencer.Proofs.Element.Subelements
import PulseSequencer.Proofs.Program.Counters
import PulseSequencer.Proofs.Program.Subroutines
import PulseSequencer.Proofs.Program.Worklist

/-!
# What a graph is, seen from its element

The nodes of a body are read off the element, without the order in which the graph was built: rows
are opened, a loop stays a loop, a subroutine is a call of an equal one in the table, and timestamps
that follow each other share a block.

Results:
1. `Lowered.renders`: the nodes of a lowered element are those that the element describes.
2. `ProgramGraph.lower_unsupported`: lowering stops at the first part without instructions. A
   subroutine that is skipped holds no such part, because an equal one was finished before.
3. `ProgramGraph.ofElement_represents`: the graph of an element, or the reason why there is none.
-/

namespace PulseSequencer

namespace Element

/-! ## Parts of elements -/

/-- What the sequencer has no instructions for, of a single node. -/
def feature? : Element → Option Unsupported
  | .trigger => some .trigger
  | .parallel _ => some .parallel
  | _ => none

/-- The body of a subroutine. -/
def body? : Element → Option Element
  | .subroutine body => some body
  | _ => none

mutual

theorem unsupported_eq_findSome : ∀ e : Element, e.unsupported = e.subelements.findSome? feature?
  | .timestamp _ => rfl
  | .trigger => rfl
  | .parallel _ => rfl
  | .sequence children => unsupportedAll_eq_findSome children
  | .repeated body _ => unsupported_eq_findSome body
  | .subroutine body => unsupported_eq_findSome body

theorem unsupportedAll_eq_findSome : ∀ elements : List Element,
    unsupportedAll elements = (subelementsAll elements).findSome? feature?
  | [] => rfl
  | element :: rest => by
    rw [unsupportedAll, subelementsAll, List.findSome?_append, unsupported_eq_findSome element,
      unsupportedAll_eq_findSome rest]

end

mutual

theorem bodies_eq_filterMap : ∀ e : Element, e.bodies = e.subelements.filterMap body?
  | .timestamp _ => rfl
  | .trigger => rfl
  | .parallel children => bodiesAll_eq_filterMap children
  | .sequence children => bodiesAll_eq_filterMap children
  | .repeated body _ => bodies_eq_filterMap body
  | .subroutine body => congrArg (body :: ·) (bodies_eq_filterMap body)

theorem bodiesAll_eq_filterMap : ∀ elements : List Element,
    bodiesAll elements = (subelementsAll elements).filterMap body?
  | [] => rfl
  | element :: rest => by
    rw [bodiesAll, subelementsAll, List.filterMap_append, bodies_eq_filterMap element,
      bodiesAll_eq_filterMap rest]

end

theorem mem_bodies {e body : Element} : body ∈ e.bodies ↔ .subroutine body ∈ e.subelements := by
  rw [bodies_eq_filterMap, List.mem_filterMap]
  constructor
  · rintro ⟨part, inside, same⟩
    cases part with
    | subroutine other =>
      obtain rfl := Option.some.inj same
      exact inside
    | _ => cases same
  · intro inside
    exact ⟨_, inside, rfl⟩

/-- All that is in the body of a subroutine is in the element. -/
theorem subelements_subset_of_mem_bodies {e body : Element} (inside : body ∈ e.bodies) :
    body.subelements ⊆ e.subelements :=
  List.Subset.trans (List.subset_cons_self _ _) (subelements_trans (mem_bodies.mp inside))

theorem unsupported_of_mem_bodies {e body : Element} (supported : e.unsupported = none)
    (inside : body ∈ e.bodies) : body.unsupported = none := by
  rw [unsupported_eq_findSome, List.findSome?_eq_none_iff] at supported ⊢
  exact fun part deeper => supported part (subelements_subset_of_mem_bodies inside deeper)

theorem serial_of_supported {e : Element} (supported : e.unsupported = none) : e.Serial := by
  rw [unsupported_eq_findSome, List.findSome?_eq_none_iff] at supported
  rintro _ inside children rfl
  cases supported _ inside

theorem Alike.unsupported_eq {a b : Element} (alike : Alike a b) :
    a.unsupported = b.unsupported := by
  induction alike with
  | timestamp _ => rfl
  | trigger => rfl
  | emptySequence => rfl
  | emptyParallel => rfl
  | sequence _ _ ihFirst ihRest =>
    simp only [unsupported] at ihRest
    simp only [unsupported, unsupportedAll, ihFirst, ihRest]
  | parallel _ _ _ _ => rfl
  | repeated _ _ ih => exact ih
  | subroutine _ _ ih => exact ih

/-! ## Rows without rows in them -/

mutual

/-- The elements that an element puts into a row: rows are opened, loops and subroutines are not. -/
def items : Element → List Element
  | .sequence children => itemsAll children
  | .timestamp t => [.timestamp t]
  | .trigger => [.trigger]
  | .parallel children => [.parallel children]
  | .repeated body times => [.repeated body times]
  | .subroutine body => [.subroutine body]

def itemsAll : List Element → List Element
  | [] => []
  | element :: rest => element.items ++ itemsAll rest

end

end Element

/-! ## Nodes of elements in a row -/

/-- `Renders keys items nodes`: the nodes of elements in a row, where calls go to a table of
subroutines made from `keys`. A block takes all timestamps up to the next element of another
kind. -/
inductive Renders (keys : List Element) : List Element → List Node → Prop
  | nil : Renders keys [] []
  | block {run : List Timestamp} {rest : List Element} {nodes : List Node} (nonempty : run ≠ [])
      (ends : ∀ t, rest.head? ≠ some (.timestamp t)) :
      Renders keys rest nodes → Renders keys (run.map .timestamp ++ rest) (.block run :: nodes)
  | loop {body : Element} {times : UInt32} {inner nodes : List Node} {rest : List Element} :
      Renders keys body.items inner → Renders keys rest nodes →
      Renders keys (.repeated body times :: rest) (.loop times 0 inner :: nodes)
  | call {key body : Element} {index : Nat} {rest : List Element} {nodes : List Node}
      (found : keys[index]? = some key) (equal : (key == body) = true) :
      Renders keys rest nodes → Renders keys (.subroutine body :: rest) (.call index :: nodes)

/-- A timestamp in front joins the block that follows it. -/
theorem Renders.timestamp {keys rest : List Element} {nodes : List Node}
    (renders : Renders keys rest nodes) (t : Timestamp) :
    Renders keys (.timestamp t :: rest) (Node.cons (.block [t]) nodes) := by
  have alone : ∀ {rest nodes}, Renders keys rest nodes →
      (∀ other, rest.head? ≠ some (.timestamp other)) →
      Renders keys (.timestamp t :: rest) (.block [t] :: nodes) :=
    fun renders ends => .block (List.cons_ne_nil t []) ends renders
  cases renders with
  | nil => exact alone .nil (by simp)
  | @block run rest _ _ ends renders =>
    exact @Renders.block keys (t :: run) rest _ (by simp) ends renders
  | loop inner renders => exact alone (.loop inner renders) (by simp)
  | call found equal renders => exact alone (.call found equal renders) (by simp)

/-- The nodes of an element, joined to those that follow it. -/
theorem Lowered.renders_append {keys : List Element} {e : Element} {nodes : List Node}
    (lowered : Lowered keys e nodes) (equal : ∀ body ∈ e.bodies, (body == body) = true)
    {rest : List Element} {after : List Node} (renders : Renders keys rest after) :
    Renders keys (e.items ++ rest) (nodes.foldr Node.cons after) := by
  induction lowered generalizing rest after with
  | timestamp t => exact renders.timestamp t
  | nil => exact renders
  | @cons e es first others _ _ ihFirst ihRest =>
    obtain ⟨equalFirst, equalRest⟩ := List.forall_mem_append.mp equal
    rw [Element.items, Element.itemsAll, List.append_assoc, List.foldr_append]
    exact ihFirst equalFirst (ihRest equalRest renders)
  | @repeated body nodes times _ ih =>
    have inner := ih equal Renders.nil
    rw [List.append_nil] at inner
    exact .loop inner renders
  | @subroutine key body index found same =>
    refine .call found ?_ renders
    rcases same with rfl | equalKey
    · exact equal key List.mem_cons_self
    · exact equalKey

theorem Lowered.renders {keys : List Element} {e : Element} {nodes : List Node}
    (lowered : Lowered keys e nodes) (equal : ∀ body ∈ e.bodies, (body == body) = true) :
    Renders keys e.items (Node.joinBlocks nodes) := by
  have joined := lowered.renders_append equal Renders.nil
  rwa [List.append_nil] at joined

namespace ProgramGraph

open Element (Closed feature? body?)

/-! ## The first part without instructions -/

mutual

theorem lower_unsupported {e : Element} {feature : Unsupported}
    (unsupported : e.unsupported = some feature) {table : List Routine} {size : Nat}
    (small : e.size ≤ size + 1) (closed : Closed size (table.map Routine.source))
    (finished : ∀ key ∈ table.map Routine.source, key.size ≤ size → key.unsupported = none) :
    lower table e = .error feature := by
  match e, unsupported, small with
  | .trigger, unsupported, _ =>
    cases unsupported
    rfl
  | .parallel children, unsupported, _ =>
    cases unsupported
    rfl
  | .sequence children, unsupported, small =>
    rw [Element.size] at small
    rw [lower]
    exact lowerAll_unsupported unsupported (by omega) closed finished
  | .repeated body times, unsupported, small =>
    rw [Element.size] at small
    rw [lower, lower_unsupported (e := body) unsupported (by omega) closed finished]
    rfl
  | .subroutine body, unsupported, small =>
    rw [Element.size] at small
    rw [Element.unsupported] at unsupported
    rw [lower]
    split
    · next index found =>
      -- An equal body in the table is no larger than what is finished.
      obtain ⟨inside, same, _⟩ := List.findIdx?_eq_some_iff_getElem.mp found
      have alike := Element.alike_of_beq same
      have supported := finished _ (List.mem_map_of_mem (List.getElem_mem inside))
        (by rw [alike.size_eq]; omega)
      rw [alike.unsupported_eq, unsupported] at supported
      cases supported
    · have positive := body.one_le_size
      have sources : (table ++ [(⟨body, [], 0⟩ : Routine)]).map Routine.source
          = table.map Routine.source ++ [body] := by simp
      have error : lower (table ++ [⟨body, [], 0⟩]) body = .error feature := by
        refine lower_unsupported unsupported (show _ ≤ body.size - 1 + 1 by omega) ?_ ?_
        · rw [sources]
          exact closed.append_body (by omega)
        · rw [sources, List.forall_mem_append]
          exact ⟨fun key old smaller => finished key old (by omega),
            List.forall_mem_singleton.mpr fun smaller => by omega⟩
      rw [error]
      rfl

theorem lowerAll_unsupported {elements : List Element} {feature : Unsupported}
    (unsupported : Element.unsupportedAll elements = some feature) {table : List Routine}
    {size : Nat} (small : Element.sizeAll elements ≤ size + 1)
    (closed : Closed size (table.map Routine.source))
    (finished : ∀ key ∈ table.map Routine.source, key.size ≤ size → key.unsupported = none) :
    lowerAll table elements = .error feature := by
  match elements, unsupported, small with
  | element :: rest, unsupported, small =>
    rw [Element.sizeAll] at small
    rw [Element.unsupportedAll, Option.or_eq_some_iff] at unsupported
    rw [lowerAll]
    rcases unsupported with first | ⟨supported, later⟩
    · rw [lower_unsupported first (by omega) closed finished]
      rfl
    · obtain ⟨nodes, middle, ok⟩ := lower_supported supported table
      obtain ⟨inserted, closedMiddle⟩ := lower_sources ok (by omega) closed
      have finishedMiddle : ∀ key ∈ middle.map Routine.source, key.size ≤ size →
          key.unsupported = none := by
        intro key present smaller
        rw [inserted] at present
        rcases Element.mem_or_mem_of_mem_foldl present with old | new
        · exact finished key old smaller
        · exact Element.unsupported_of_mem_bodies supported new
      rw [ok, Except.ok_bind]
      dsimp only
      rw [lowerAll_unsupported later (by omega) closedMiddle finishedMiddle]
      rfl

end

theorem ofElement_unsupported {e : Element} {feature : Unsupported}
    (unsupported : e.unsupported = some feature) : ofElement e = .error feature := by
  rw [ofElement, lower_unsupported unsupported (Nat.le_succ _) (by simp [Closed]) (by simp)]
  rfl

theorem supported_of_ofElement {e : Element} {graph : ProgramGraph}
    (ok : ofElement e = .ok graph) : e.unsupported = none := by
  cases unsupported : e.unsupported with
  | none => rfl
  | some feature =>
    rw [ofElement_unsupported unsupported] at ok
    cases ok

/-! ## The graph of an element -/

/-- A graph with the nodes of an element, in which every subroutine is stored once. -/
structure Represents (e : Element) (graph : ProgramGraph) : Prop where
  /-- The subroutines stand in the order in which they first occur. -/
  keys : graph.routines.map Routine.source = Element.distinct (e.subelements.filterMap body?)
  distinct : graph.routines.Pairwise fun first later => (first.source == later.source) = false
  covered : ∀ body, .subroutine body ∈ e.subelements →
    ∃ routine ∈ graph.routines, (routine.source == body) = true
  main : Renders (graph.routines.map Routine.source) e.items graph.main
  bodies : ∀ routine ∈ graph.routines,
    Renders (graph.routines.map Routine.source) routine.source.items routine.body
  acyclic : ∀ routine,
    ¬ Relation.TransGen (fun caller callee => callee ∈ graph.callees caller) routine routine

theorem represents_of_ok {e : Element} {graph : ProgramGraph} (ok : ofElement e = .ok graph)
    (equal : ∀ body ∈ e.bodies, (body == body) = true) : Represents e graph := by
  have graphOf := ofElement_spec ok
  have keys := ofElement_sources ok
  refine ⟨?_, ?_, ?_, ?_, ?_, graphOf.descending.acyclic⟩
  · rw [← Element.bodies_eq_filterMap]
    exact keys
  · have pairwise := Element.pairwise_distinct e.bodies
    rw [← keys, List.pairwise_map] at pairwise
    exact pairwise
  · intro body inside
    have inBodies := Element.mem_bodies.mpr inside
    obtain ⟨key, present, same⟩ := Element.exists_mem_distinct inBodies
    rw [← keys, List.mem_map] at present
    obtain ⟨routine, present, rfl⟩ := present
    refine ⟨routine, present, ?_⟩
    rcases same with same | equalKey
    · rw [same]
      exact equal body inBodies
    · exact equalKey
  · obtain ⟨nodes, lowered, same⟩ := graphOf.main
    rw [same]
    exact lowered.renders equal
  · intro routine present
    have inBodies : routine.source ∈ e.bodies := by
      refine Element.mem_of_mem_distinct ?_
      rw [← keys]
      exact List.mem_map_of_mem present
    obtain ⟨nodes, lowered, same⟩ := (graphOf.filled routine present).body
    rw [same]
    refine lowered.renders fun body deeper => equal body ?_
    exact Element.mem_bodies.mpr
      (Element.subelements_subset_of_mem_bodies inBodies (Element.mem_bodies.mp deeper))

/-- The graph of an element with a finite duration, built with or without recursion. It is missing
only if the element holds a part without instructions, and then the first one is the reason. -/
theorem ofElement_represents (e : Element) (finite : e.duration.value.isFinite = true) :
    Worklist.build e = (ofElement e).mapError .unsupported ∧
    (∀ feature, e.subelements.findSome? feature? = some feature →
      ofElement e = .error feature) ∧
    (e.subelements.findSome? feature? = none →
      ∃ graph, ofElement e = .ok graph ∧ Represents e graph) := by
  rw [← Element.unsupported_eq_findSome]
  refine ⟨Worklist.build_eq e, fun feature => ofElement_unsupported, fun supported => ?_⟩
  obtain ⟨graph, ok⟩ := ofElement_supported supported
  have finiteParts := Element.finite_subelements (Element.serial_of_supported supported)
    (Duration.finite_of_value finite)
  refine ⟨graph, ok, represents_of_ok ok fun body inside => ?_⟩
  exact Element.beq_of_finite fun part deeper =>
    finiteParts part (Element.subelements_subset_of_mem_bodies inside deeper)

/-- Two subroutines, one of them in the other and in a loop of its own. -/
def sharedCalls : Element :=
  let second : Element := .timestamp (.second (.ofLevel 0 (some true)))
  let inner : Element := .subroutine second
  let outer : Element := .subroutine (.repeated (.sequence [second, inner]) 2)
  .sequence [second, .sequence [second, outer], .repeated inner 3, outer]

theorem ofElement_represents_sharedCalls :
    (∃ graph, Worklist.build sharedCalls = .ok graph ∧ Represents sharedCalls graph ∧
      graph.routines.length = 2) ∧
    Worklist.build (.sequence [sharedCalls, .trigger, .parallel []])
      = .error (.unsupported .trigger) := by
  obtain ⟨built, _, exists_graph⟩ := ofElement_represents sharedCalls (by decide +kernel)
  obtain ⟨builtWaiting, unsupported, _⟩ :=
    ofElement_represents (.sequence [sharedCalls, .trigger, .parallel []]) (by decide +kernel)
  obtain ⟨graph, ok, represents⟩ := exists_graph rfl
  refine ⟨⟨graph, by rw [built, ok]; rfl, represents, ?_⟩, ?_⟩
  · rw [← List.length_map, represents.keys]
    decide +kernel
  · rw [builtWaiting, unsupported .trigger rfl]
    rfl

end ProgramGraph

end PulseSequencer

import PulseSequencer.Program.Graph
import PulseSequencer.Proofs.Element.Equality
import PulseSequencer.Proofs.Results

/-!
# What lowering produces

`ProgramGraph.lower` threads one table of subroutines through the whole element, and a subroutine
stands in the table before its body is entered. `Lowered` says what the nodes of an element are
relative to the finished table, without the order in which the table was filled.

Results:
1. `lower_spec`: lowering appends to the table, and both the nodes it returns and the bodies it
   appends are lowered relative to the table after it.
2. `ofElement_spec`: so the graph of an element is lowered relative to its own table.
3. `Lowered.size_lt`: a call goes to a subroutine made from a smaller element, so calls cannot be
   circular.
4. `lower_total`: an element that the sequencer can play is lowered, and so are all sources of its
   subroutines.
5. `Lowered.emittable`: lowering keeps blocks from being empty and loops from being skipped.
-/

namespace PulseSequencer

/-! ## The size of an element -/

namespace Element

mutual

/-- The number of elements in a tree. -/
def size : Element → Nat
  | .timestamp _ => 1
  | .trigger => 1
  | .sequence children => sizeAll children + 1
  | .parallel children => sizeAll children + 1
  | .repeated body _ => body.size + 1
  | .subroutine body => body.size + 1

def sizeAll : List Element → Nat
  | [] => 0
  | element :: rest => element.size + sizeAll rest

end

theorem Alike.size_eq {a b : Element} (alike : Alike a b) : a.size = b.size := by
  induction alike with
  | timestamp _ => rfl
  | trigger => rfl
  | emptySequence => rfl
  | emptyParallel => rfl
  | sequence _ _ ihFirst ihRest =>
    simp only [size, Nat.add_right_cancel_iff] at ihRest
    simp only [size, sizeAll, ihFirst, ihRest]
  | parallel _ _ ihFirst ihRest =>
    simp only [size, Nat.add_right_cancel_iff] at ihRest
    simp only [size, sizeAll, ihFirst, ihRest]
  | repeated times _ ih => rw [size, size, ih]
  | subroutine _ _ ih => rw [size, size, ih]

/-- The element that a subroutine was made from stands for the body of a call: it is that body, or
one that is equal to it. The two differ, because a body whose duration is not a number is not even
equal to itself. -/
def StandsFor (source body : Element) : Prop :=
  source = body ∨ (source == body) = true

/-- What the structure of an element settles is the same for the source and the body. -/
theorem StandsFor.congr {α : Type} {f : Element → α} {source body : Element}
    (same : source.StandsFor body) (congr : ∀ {a b : Element}, Alike a b → f a = f b) :
    f source = f body := by
  rcases same with rfl | equal
  · rfl
  · exact congr (alike_of_beq equal)

theorem StandsFor.size_eq {source body : Element} (same : source.StandsFor body) :
    source.size = body.size :=
  same.congr Alike.size_eq

end Element

/-! ## Elements and nodes that can be played -/

namespace Element

mutual

/-- What the sequencer can play, trigger waits apart: nothing side by side, no loop that is skipped,
and valid timestamps only. -/
def Emittable (valid : Timestamp → Prop) : Element → Prop
  | .timestamp t => valid t
  | .trigger => True
  | .sequence children => EmittableAll valid children
  | .parallel _ => False
  | .repeated body times => times ≠ 0 ∧ Emittable valid body
  | .subroutine body => Emittable valid body

def EmittableAll (valid : Timestamp → Prop) : List Element → Prop
  | [] => True
  | element :: rest => Emittable valid element ∧ EmittableAll valid rest

end

theorem emittableAll_iff {valid : Timestamp → Prop} {elements : List Element} :
    EmittableAll valid elements ↔ ∀ element ∈ elements, element.Emittable valid := by
  induction elements with
  | nil => simp [EmittableAll]
  | cons element rest ih => rw [EmittableAll, ih, List.forall_mem_cons]

end Element

namespace Node

mutual

/-- Nodes without empty blocks and skipped loops, and with valid timestamps only. -/
def Emittable (valid : Timestamp → Prop) : Node → Prop
  | .block timestamps => timestamps ≠ [] ∧ ∀ t ∈ timestamps, valid t
  | .loop times _ body => times ≠ 0 ∧ EmittableAll valid body
  | .call _ => True

def EmittableAll (valid : Timestamp → Prop) : List Node → Prop
  | [] => True
  | node :: rest => node.Emittable valid ∧ EmittableAll valid rest

end

section

variable {valid : Timestamp → Prop}

theorem EmittableAll.append {first second : List Node} (emittable : EmittableAll valid first)
    (emittableSecond : EmittableAll valid second) : EmittableAll valid (first ++ second) := by
  induction first with
  | nil => exact emittableSecond
  | cons node rest ih => exact ⟨emittable.1, ih emittable.2⟩

theorem Emittable.cons {node : Node} {rest : List Node} (emittable : node.Emittable valid)
    (emittableRest : EmittableAll valid rest) : EmittableAll valid (cons node rest) := by
  unfold Node.cons
  split
  · next first second rest =>
    obtain ⟨nonempty, valid⟩ := emittable
    obtain ⟨⟨_, validSecond⟩, others⟩ := emittableRest
    exact ⟨⟨by simp [nonempty], List.forall_mem_append.mpr ⟨valid, validSecond⟩⟩, others⟩
  · exact ⟨emittable, emittableRest⟩

theorem EmittableAll.joinBlocks {nodes : List Node} (emittable : EmittableAll valid nodes) :
    EmittableAll valid (joinBlocks nodes) := by
  induction nodes with
  | nil => trivial
  | cons node rest ih => exact emittable.1.cons (ih emittable.2)

end

end Node

/-! ## Lowered elements -/

/-- `Lowered sources e nodes`: the nodes of `e`, blocks not yet joined, where calls go to a table of
subroutines made from `sources`. -/
inductive Lowered (sources : List Element) : Element → List Node → Prop
  | timestamp (t : Timestamp) : Lowered sources (.timestamp t) [.block [t]]
  | nil : Lowered sources (.sequence []) []
  | cons {e : Element} {es : List Element} {first rest : List Node} :
      Lowered sources e first → Lowered sources (.sequence es) rest →
      Lowered sources (.sequence (e :: es)) (first ++ rest)
  | repeated {body : Element} {nodes : List Node} (times : UInt32) :
      Lowered sources body nodes →
      Lowered sources (.repeated body times) [.loop times 0 (Node.joinBlocks nodes)]
  | subroutine {source body : Element} {index : Nat} :
      sources[index]? = some source → source.StandsFor body →
      Lowered sources (.subroutine body) [.call index]

/-- A table entry whose body is filled in. -/
structure Routine.Filled (sources : List Element) (routine : Routine) : Prop where
  body : ∃ nodes, Lowered sources routine.source nodes ∧ routine.body = Node.joinBlocks nodes

/-- Entries that are added to a table later do not change what the earlier ones stand for. -/
theorem Lowered.append {sources : List Element} {e : Element} {nodes : List Node}
    (lowered : Lowered sources e nodes) (added : List Element) :
    Lowered (sources ++ added) e nodes := by
  induction lowered with
  | timestamp t => exact .timestamp t
  | nil => exact .nil
  | cons _ _ ihFirst ihRest => exact .cons ihFirst ihRest
  | repeated times _ ih => exact .repeated times ih
  | @subroutine source body index found same =>
    refine .subroutine ?_ same
    rw [List.getElem?_append_left (List.getElem?_eq_some_iff.mp found).1]
    exact found

theorem Routine.Filled.append {sources : List Element} {routine : Routine}
    (filled : routine.Filled sources) (added : List Element) :
    routine.Filled (sources ++ added) := by
  obtain ⟨nodes, lowered, same⟩ := filled.body
  exact ⟨nodes, lowered.append added, same⟩

namespace Node

mutual

/-- The timestamps of a node, at any depth. -/
def timestamps : Node → List Timestamp
  | .block timestamps => timestamps
  | .loop _ _ body => timestampsAll body
  | .call _ => []

def timestampsAll : List Node → List Timestamp
  | [] => []
  | node :: rest => node.timestamps ++ timestampsAll rest

end

@[simp] theorem timestampsAll_append (first second : List Node) :
    timestampsAll (first ++ second) = timestampsAll first ++ timestampsAll second := by
  induction first with
  | nil => rfl
  | cons node rest ih => simp [timestampsAll, ih]

@[simp] theorem timestampsAll_cons (node : Node) (rest : List Node) :
    timestampsAll (cons node rest) = node.timestamps ++ timestampsAll rest := by
  unfold cons
  split
  · simp [timestampsAll, timestamps]
  · rfl

@[simp] theorem timestampsAll_joinBlocks (nodes : List Node) :
    timestampsAll (joinBlocks nodes) = timestampsAll nodes := by
  induction nodes with
  | nil => rfl
  | cons node rest ih =>
    show timestampsAll (cons node (joinBlocks rest)) = _
    rw [timestampsAll_cons, ih, timestampsAll]

@[simp] theorem callsAll_append (first second : List Node) :
    callsAll (first ++ second) = callsAll first ++ callsAll second := by
  induction first with
  | nil => rfl
  | cons node rest ih => simp [callsAll, ih]

@[simp] theorem callsAll_cons (node : Node) (rest : List Node) :
    callsAll (cons node rest) = node.calls ++ callsAll rest := by
  unfold cons
  split
  · rfl
  · rfl

@[simp] theorem callsAll_joinBlocks (nodes : List Node) :
    callsAll (joinBlocks nodes) = callsAll nodes := by
  induction nodes with
  | nil => rfl
  | cons node rest ih =>
    show callsAll (cons node (joinBlocks rest)) = _
    rw [callsAll_cons, ih, callsAll]

end Node

/-- A call goes to a subroutine of the table, made from an element that is smaller than the one in
which the call stands. -/
theorem Lowered.size_lt {sources : List Element} {e : Element} {nodes : List Node}
    (lowered : Lowered sources e nodes) {index : Nat} (called : index ∈ Node.callsAll nodes) :
    ∃ source, sources[index]? = some source ∧ source.size < e.size := by
  induction lowered with
  | timestamp t => simp [Node.callsAll, Node.calls] at called
  | nil => simp [Node.callsAll] at called
  | @cons e es first rest _ _ ihFirst ihRest =>
    rw [Node.callsAll_append, List.mem_append] at called
    simp only [Element.size, Element.sizeAll]
    rcases called with inFirst | inRest
    · obtain ⟨source, found, smaller⟩ := ihFirst inFirst
      exact ⟨source, found, by omega⟩
    · obtain ⟨source, found, smaller⟩ := ihRest inRest
      simp only [Element.size] at smaller
      exact ⟨source, found, by omega⟩
  | repeated times _ ih =>
    simp only [Node.callsAll, Node.calls, Node.callsAll_joinBlocks, List.append_nil] at called
    obtain ⟨source, found, smaller⟩ := ih called
    exact ⟨source, found, by simp only [Element.size]; omega⟩
  | @subroutine source body routine found same =>
    simp only [Node.callsAll, Node.calls, List.append_nil, List.mem_singleton] at called
    subst called
    exact ⟨source, found, by simp only [Element.size, same.size_eq]; omega⟩

theorem Lowered.emittable {valid : Timestamp → Prop} {sources : List Element} {e : Element}
    {nodes : List Node} (lowered : Lowered sources e nodes) (emittable : e.Emittable valid) :
    Node.EmittableAll valid nodes := by
  induction lowered with
  | timestamp t =>
    rw [Element.Emittable] at emittable
    exact ⟨⟨by simp, by simpa using emittable⟩, trivial⟩
  | nil => trivial
  | cons _ _ ihFirst ihRest => exact (ihFirst emittable.1).append (ihRest emittable.2)
  | repeated times _ ih => exact ⟨⟨emittable.1, (ih emittable.2).joinBlocks⟩, trivial⟩
  | subroutine _ _ => exact ⟨trivial, trivial⟩

/-! ## The table while it grows -/

namespace ProgramGraph

/-- What lowering adds to a table, and the nodes it returns. -/
structure Extends (table : List Routine) (e : Element) (nodes : List Node)
    (added : List Routine) : Prop where
  nodes : Lowered ((table ++ added).map Routine.source) e nodes
  filled : ∀ routine ∈ added, routine.Filled ((table ++ added).map Routine.source)

/-- The sources of two additions one after the other. -/
theorem map_source_append (table first second : List Routine) :
    (table ++ (first ++ second)).map Routine.source
      = (table ++ first).map Routine.source ++ second.map Routine.source := by
  simp

mutual

theorem lower_spec {table result : List Routine} {e : Element} {nodes : List Node}
    (ok : lower table e = .ok (nodes, result)) :
    ∃ added, result = table ++ added ∧ Extends table e nodes added := by
  match e, ok with
  | .timestamp t, ok =>
    simp only [lower, Except.ok.injEq, Prod.mk.injEq] at ok
    obtain ⟨rfl, rfl⟩ := ok
    exact ⟨[], (List.append_nil _).symm, .timestamp t, by simp⟩
  | .sequence children, ok =>
    rw [lower] at ok
    exact lowerAll_spec ok
  | .repeated body times, ok =>
    simp only [lower, Except.bind_eq_ok_iff, Except.pure_eq_ok, Except.ok.injEq,
      Prod.mk.injEq] at ok
    obtain ⟨⟨innerNodes, innerTable⟩, found, rfl, rfl⟩ := ok
    obtain ⟨added, rfl, extended⟩ := lower_spec found
    exact ⟨added, rfl, .repeated times extended.nodes, extended.filled⟩
  | .subroutine body, ok =>
    simp only [lower] at ok
    split at ok
    · next index found =>
      simp only [Except.ok.injEq, Prod.mk.injEq] at ok
      obtain ⟨rfl, rfl⟩ := ok
      obtain ⟨inside, same, _⟩ := List.findIdx?_eq_some_iff_getElem.mp found
      have source : ((table ++ []).map Routine.source)[index]? = some table[index].source := by
        simp [inside]
      exact ⟨[], (List.append_nil _).symm, .subroutine source (.inr same), by simp⟩
    · simp only [Except.bind_eq_ok_iff, Except.pure_eq_ok, Except.ok.injEq, Prod.mk.injEq] at ok
      obtain ⟨⟨innerNodes, innerTable⟩, found, rfl, rfl⟩ := ok
      obtain ⟨added, rfl, extended⟩ := lower_spec found
      -- The placeholder in the table has the source of the entry that replaces it.
      have sources : (table ++ [(⟨body, [], 0⟩ : Routine)] ++ added).map Routine.source
          = (table ++ ((⟨body, Node.joinBlocks innerNodes, 0⟩ : Routine) :: added)).map
            Routine.source := by
        simp
      refine ⟨⟨body, Node.joinBlocks innerNodes, 0⟩ :: added, by simp, ?_, ?_⟩
      · have source : ((table ++ ((⟨body, Node.joinBlocks innerNodes, 0⟩ : Routine) :: added)).map
            Routine.source)[table.length]? = some body := by
          simp
        exact .subroutine source (.inl rfl)
      · intro routine present
        rw [← sources]
        rcases List.mem_cons.mp present with rfl | later
        · exact ⟨innerNodes, extended.nodes, rfl⟩
        · exact extended.filled routine later

theorem lowerAll_spec {table result : List Routine} {children : List Element}
    {nodes : List Node} (ok : lowerAll table children = .ok (nodes, result)) :
    ∃ added, result = table ++ added ∧ Extends table (.sequence children) nodes added := by
  match children, ok with
  | [], ok =>
    simp only [lowerAll, Except.ok.injEq, Prod.mk.injEq] at ok
    obtain ⟨rfl, rfl⟩ := ok
    exact ⟨[], (List.append_nil _).symm, .nil, by simp⟩
  | e :: es, ok =>
    simp only [lowerAll, Except.bind_eq_ok_iff, Except.pure_eq_ok, Except.ok.injEq,
      Prod.mk.injEq] at ok
    obtain ⟨⟨first, firstTable⟩, foundFirst, ⟨rest, restTable⟩, foundRest, rfl, rfl⟩ := ok
    obtain ⟨addedFirst, rfl, extendedFirst⟩ := lower_spec foundFirst
    obtain ⟨addedRest, rfl, extendedRest⟩ := lowerAll_spec foundRest
    refine ⟨addedFirst ++ addedRest, by simp, ?_, ?_⟩
    · refine .cons ?_ ?_
      · rw [map_source_append]
        exact extendedFirst.nodes.append _
      · rw [← List.append_assoc]
        exact extendedRest.nodes
    · intro routine present
      rcases List.mem_append.mp present with inFirst | inRest
      · rw [map_source_append]
        exact (extendedFirst.filled routine inFirst).append _
      · rw [← List.append_assoc]
        exact extendedRest.filled routine inRest

end

section

variable {valid : Timestamp → Prop}

mutual

theorem lower_total {e : Element} (emittable : e.Emittable valid) (noTrigger : e.hasTrigger = false)
    {table : List Routine} (sources : ∀ routine ∈ table, routine.source.Emittable valid) :
    ∃ nodes result, lower table e = .ok (nodes, result) ∧
      ∀ routine ∈ result, routine.source.Emittable valid := by
  match e, emittable, noTrigger with
  | .timestamp t, _, _ => exact ⟨_, _, rfl, sources⟩
  | .sequence children, emittable, noTrigger =>
    rw [lower]
    exact lowerAll_total emittable noTrigger sources
  | .repeated body times, emittable, noTrigger =>
    obtain ⟨nodes, result, ok, sources⟩ := lower_total emittable.2 noTrigger sources
    exact ⟨_, _, by rw [lower, ok]; rfl, sources⟩
  | .subroutine body, emittable, noTrigger =>
    rw [Element.Emittable] at emittable
    rw [Element.hasTrigger] at noTrigger
    rw [lower]
    split
    · exact ⟨_, _, rfl, sources⟩
    · have extended : ∀ routine ∈ table ++ [(⟨body, [], 0⟩ : Routine)],
          routine.source.Emittable valid :=
        List.forall_mem_append.mpr ⟨sources, by simpa using emittable⟩
      obtain ⟨nodes, result, ok, after⟩ := lower_total emittable noTrigger extended
      refine ⟨_, _, by rw [ok]; rfl, fun routine present => ?_⟩
      rcases List.mem_or_eq_of_mem_set present with kept | rfl
      · exact after routine kept
      · exact emittable

theorem lowerAll_total {elements : List Element} (emittable : Element.EmittableAll valid elements)
    (noTrigger : Element.anyTrigger elements = false) {table : List Routine}
    (sources : ∀ routine ∈ table, routine.source.Emittable valid) :
    ∃ nodes result, lowerAll table elements = .ok (nodes, result) ∧
      ∀ routine ∈ result, routine.source.Emittable valid := by
  match elements, emittable, noTrigger with
  | [], _, _ => exact ⟨_, _, rfl, sources⟩
  | element :: rest, emittable, noTrigger =>
    rw [Element.anyTrigger, Bool.or_eq_false_iff] at noTrigger
    obtain ⟨first, middle, ok, sources⟩ := lower_total emittable.1 noTrigger.1 sources
    obtain ⟨others, result, okRest, sources⟩ := lowerAll_total emittable.2 noTrigger.2 sources
    refine ⟨first ++ others, result, ?_, sources⟩
    rw [lowerAll, ok, Except.ok_bind]
    dsimp only
    rw [okRest]
    rfl

end

end

/-- The graph of `e`: its nodes and all bodies of its table are lowered relative to that table. -/
structure GraphOf (e : Element) (graph : ProgramGraph) : Prop where
  main : ∃ nodes, Lowered (graph.routines.map Routine.source) e nodes ∧
    graph.main = Node.joinBlocks nodes
  filled : ∀ routine ∈ graph.routines,
    routine.Filled (graph.routines.map Routine.source)

theorem ofElement_spec {e : Element} {graph : ProgramGraph} (ok : ofElement e = .ok graph) :
    GraphOf e graph := by
  simp only [ofElement, Except.bind_eq_ok_iff, Except.pure_eq_ok, Except.ok.injEq] at ok
  obtain ⟨⟨nodes, routines⟩, found, rfl⟩ := ok
  obtain ⟨added, rfl, extended⟩ := lower_spec found
  exact ⟨⟨nodes, extended.nodes, rfl⟩, extended.filled⟩

/-- An element that can be played has a graph, with nodes that can be played. -/
theorem ofElement_total {valid : Timestamp → Prop} {e : Element} (emittable : e.Emittable valid)
    (noTrigger : e.hasTrigger = false) :
    ∃ graph, ofElement e = .ok graph ∧ Node.EmittableAll valid graph.main ∧
      ∀ routine ∈ graph.routines, Node.EmittableAll valid routine.body := by
  have none : ∀ routine ∈ ([] : List Routine), routine.source.Emittable valid := by simp
  obtain ⟨nodes, routines, ok, sources⟩ := lower_total emittable noTrigger none
  have made : ofElement e = .ok ⟨Node.joinBlocks nodes, routines⟩ := by
    rw [ofElement, ok]
    rfl
  refine ⟨_, made, ?_, fun routine present => ?_⟩
  · obtain ⟨nodes', lowered, same⟩ := (ofElement_spec made).main
    rw [same]
    exact (lowered.emittable emittable).joinBlocks
  · obtain ⟨nodes', lowered, same⟩ := ((ofElement_spec made).filled routine present).body
    rw [same]
    exact (lowered.emittable (sources routine present)).joinBlocks

end ProgramGraph

end PulseSequencer

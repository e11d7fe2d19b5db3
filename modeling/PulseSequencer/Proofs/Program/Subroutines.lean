import PulseSequencer.Proofs.Program.Lowering

/-!
# The table of subroutines

Lowering enters a subroutine into the table when it first meets it, and skips an equal one. Seen
from the element, the table holds its subroutines without repetition, in the order in which they
start.

The skipped subroutine may hold subroutines of its own. They are in the table as well, because the
body that was met first is finished: the bodies that are still open are larger than anything inside
them. `Closed` states this for the bodies up to a size.

Results:
1. `lower_supported`: an element is lowered unless it waits for a trigger or holds parallel
   elements.
2. `ofElement_sources`: the table of an element is made from its distinct subroutine bodies.
3. `exists_mem_distinct`, `mem_of_mem_distinct`, `pairwise_distinct`: what `distinct` keeps.
-/

namespace PulseSequencer

namespace Element

/-! ## Elements without instructions -/

mutual

/-- The first thing in an element that the sequencer has no instructions for. -/
def unsupported : Element → Option Unsupported
  | .timestamp _ => none
  | .trigger => some .trigger
  | .parallel _ => some .parallel
  | .sequence children => unsupportedAll children
  | .repeated body _ => body.unsupported
  | .subroutine body => body.unsupported

def unsupportedAll : List Element → Option Unsupported
  | [] => none
  | element :: rest => element.unsupported.or (unsupportedAll rest)

end

mutual

/-- What the sequencer has instructions for does not wait for a trigger. -/
theorem hasTrigger_of_supported : ∀ {e : Element}, e.unsupported = none → e.hasTrigger = false
  | .timestamp _, _ => rfl
  | .sequence _, supported => anyTrigger_of_supported supported
  | .repeated body _, supported => @hasTrigger_of_supported body supported
  | .subroutine body, supported => @hasTrigger_of_supported body supported

theorem anyTrigger_of_supported : ∀ {elements : List Element},
    unsupportedAll elements = none → anyTrigger elements = false
  | [], _ => rfl
  | element :: rest, supported => by
    obtain ⟨first, later⟩ := Option.or_eq_none_iff.mp supported
    rw [anyTrigger, hasTrigger_of_supported first, anyTrigger_of_supported later]
    rfl

end

/-! ## Bodies of subroutines -/

mutual

/-- The bodies of all subroutines in an element, at any depth, in the order in which they start. -/
def bodies : Element → List Element
  | .timestamp _ => []
  | .trigger => []
  | .sequence children => bodiesAll children
  | .parallel children => bodiesAll children
  | .repeated body _ => body.bodies
  | .subroutine body => body :: body.bodies

def bodiesAll : List Element → List Element
  | [] => []
  | element :: rest => element.bodies ++ bodiesAll rest

end

mutual

theorem size_lt_of_mem_bodies {e body : Element} (inside : body ∈ e.bodies) :
    body.size < e.size := by
  match e, inside with
  | .sequence children, inside =>
    have := sizeAll_le_of_mem_bodiesAll inside
    rw [size]
    omega
  | .parallel children, inside =>
    have := sizeAll_le_of_mem_bodiesAll inside
    rw [size]
    omega
  | .repeated inner times, inside =>
    have := size_lt_of_mem_bodies (e := inner) inside
    rw [size]
    omega
  | .subroutine inner, inside =>
    rw [size]
    rcases List.mem_cons.mp inside with rfl | deeper
    · omega
    · have := size_lt_of_mem_bodies deeper
      omega

theorem sizeAll_le_of_mem_bodiesAll {elements : List Element} {body : Element}
    (inside : body ∈ bodiesAll elements) : body.size < sizeAll elements := by
  match elements, inside with
  | element :: rest, inside =>
    rw [sizeAll]
    rcases List.mem_append.mp inside with inFirst | inRest
    · have := size_lt_of_mem_bodies inFirst
      omega
    · have := sizeAll_le_of_mem_bodiesAll inRest
      omega

end

theorem one_le_size (e : Element) : 1 ≤ e.size := by
  cases e <;> simp [size]

/-- Of two elements with the same structure, each subroutine of one is equal to one of the other. -/
theorem Alike.exists_mem_bodies {a b : Element} (alike : Alike a b) {body : Element}
    (inside : body ∈ b.bodies) : ∃ other ∈ a.bodies, (other == body) = true := by
  induction alike with
  | timestamp _ => simp [bodies] at inside
  | trigger => simp [bodies] at inside
  | emptySequence => simp [bodies, bodiesAll] at inside
  | emptyParallel => simp [bodies, bodiesAll] at inside
  | sequence _ _ ihFirst ihRest =>
    simp only [bodies, bodiesAll, List.mem_append] at inside ihRest ⊢
    rcases inside with inFirst | inRest
    · obtain ⟨other, present, equal⟩ := ihFirst inFirst
      exact ⟨other, .inl present, equal⟩
    · obtain ⟨other, present, equal⟩ := ihRest inRest
      exact ⟨other, .inr present, equal⟩
  | parallel _ _ ihFirst ihRest =>
    simp only [bodies, bodiesAll, List.mem_append] at inside ihRest ⊢
    rcases inside with inFirst | inRest
    · obtain ⟨other, present, equal⟩ := ihFirst inFirst
      exact ⟨other, .inl present, equal⟩
    · obtain ⟨other, present, equal⟩ := ihRest inRest
      exact ⟨other, .inr present, equal⟩
  | repeated times _ ih =>
    rw [bodies] at inside
    exact ih inside
  | @subroutine a b equal _ ih =>
    rcases List.mem_cons.mp inside with rfl | deeper
    · exact ⟨a, List.mem_cons_self, equal⟩
    · obtain ⟨other, present, equal⟩ := ih deeper
      exact ⟨other, List.mem_cons_of_mem _ present, equal⟩

/-! ## Distinct elements -/

/-- Appends an element unless an equal one is there. -/
def insertNew (keys : List Element) (body : Element) : List Element :=
  if keys.any (· == body) then keys else keys ++ [body]

/-- The elements that are not equal to an earlier one. -/
def distinct (elements : List Element) : List Element :=
  elements.foldl insertNew []

theorem insertNew_of_beq {keys : List Element} {key body : Element} (present : key ∈ keys)
    (equal : (key == body) = true) : insertNew keys body = keys :=
  if_pos (List.any_eq_true.mpr ⟨key, present, equal⟩)

theorem insertNew_of_forall_beq {keys : List Element} {body : Element}
    (absent : ∀ key ∈ keys, (key == body) = false) : insertNew keys body = keys ++ [body] := by
  refine if_neg ?_
  simpa using absent

theorem mem_insertNew {keys : List Element} {body key : Element} (present : key ∈ keys) :
    key ∈ insertNew keys body := by
  unfold insertNew
  split
  · exact present
  · exact List.mem_append_left _ present

theorem exists_mem_insertNew (keys : List Element) (body : Element) :
    ∃ key ∈ insertNew keys body, key.StandsFor body := by
  unfold insertNew
  split
  · next found =>
    obtain ⟨key, present, equal⟩ := List.any_eq_true.mp found
    exact ⟨key, present, .inr equal⟩
  · exact ⟨body, by simp, .inl rfl⟩

theorem mem_or_eq_of_mem_insertNew {keys : List Element} {body key : Element}
    (present : key ∈ insertNew keys body) : key ∈ keys ∨ key = body := by
  unfold insertNew at present
  split at present
  · exact .inl present
  · simpa using present

theorem mem_foldl_insertNew {elements keys : List Element} {key : Element}
    (present : key ∈ keys) : key ∈ elements.foldl insertNew keys := by
  induction elements generalizing keys with
  | nil => exact present
  | cons element rest ih => exact ih (mem_insertNew present)

theorem mem_or_mem_of_mem_foldl {elements keys : List Element} {key : Element}
    (present : key ∈ elements.foldl insertNew keys) : key ∈ keys ∨ key ∈ elements := by
  induction elements generalizing keys with
  | nil => exact .inl present
  | cons element rest ih =>
    rcases ih present with before | later
    · rcases mem_or_eq_of_mem_insertNew before with old | rfl
      · exact .inl old
      · exact .inr List.mem_cons_self
    · exact .inr (List.mem_cons_of_mem _ later)

theorem exists_mem_foldl {elements : List Element} (keys : List Element) {body : Element}
    (inside : body ∈ elements) : ∃ key ∈ elements.foldl insertNew keys, key.StandsFor body := by
  induction elements generalizing keys with
  | nil => cases inside
  | cons element rest ih =>
    rcases List.mem_cons.mp inside with rfl | later
    · obtain ⟨key, present, same⟩ := exists_mem_insertNew keys body
      rw [List.foldl_cons]
      exact ⟨key, mem_foldl_insertNew present, same⟩
    · exact ih _ later

/-- Elements that all have their equal among the keys add nothing. -/
theorem foldl_insertNew_eq_self {elements keys : List Element}
    (covered : ∀ element ∈ elements, ∃ key ∈ keys, (key == element) = true) :
    elements.foldl insertNew keys = keys := by
  induction elements with
  | nil => rfl
  | cons element rest ih =>
    obtain ⟨first, coveredRest⟩ := List.forall_mem_cons.mp covered
    obtain ⟨key, present, equal⟩ := first
    rw [List.foldl_cons, insertNew_of_beq present equal]
    exact ih coveredRest

/-- Every element is kept, or an equal one is. -/
theorem exists_mem_distinct {elements : List Element} {body : Element} (inside : body ∈ elements) :
    ∃ key ∈ distinct elements, key.StandsFor body :=
  exists_mem_foldl [] inside

theorem mem_of_mem_distinct {elements : List Element} {key : Element}
    (present : key ∈ distinct elements) : key ∈ elements := by
  rcases mem_or_mem_of_mem_foldl present with old | inside
  · cases old
  · exact inside

theorem pairwise_distinct (elements : List Element) :
    (distinct elements).Pairwise fun first later => (first == later) = false := by
  suffices step : ∀ keys : List Element,
      keys.Pairwise (fun first later => (first == later) = false) →
      (elements.foldl insertNew keys).Pairwise fun first later => (first == later) = false from
    step [] .nil
  induction elements with
  | nil => exact fun keys pairwise => pairwise
  | cons element rest ih =>
    intro keys pairwise
    refine ih _ ?_
    unfold insertNew
    split
    · exact pairwise
    · next absent =>
      simp only [List.any_eq_true, not_exists, not_and, Bool.not_eq_true] at absent
      exact List.pairwise_append.mpr ⟨pairwise, by simp, fun key present other inside => by
        obtain rfl := List.mem_singleton.mp inside
        exact absent key present⟩

/-- Of every key up to this size, all subroutines have their keys. -/
def Closed (size : Nat) (keys : List Element) : Prop :=
  ∀ key ∈ keys, key.size ≤ size → ∀ body ∈ key.bodies, ∃ other ∈ keys, other.StandsFor body

/-- A subroutine with an equal key below the size adds no keys, and neither do those inside it. -/
theorem Closed.foldl_eq_self {size : Nat} {keys : List Element} (closed : Closed size keys)
    {key body : Element} (present : key ∈ keys) (equal : (key == body) = true)
    (small : body.size ≤ size) : (body :: body.bodies).foldl insertNew keys = keys := by
  have alike := alike_of_beq equal
  have smallKey : key.size ≤ size := by
    rw [alike.size_eq]
    exact small
  refine foldl_insertNew_eq_self fun element inside => ?_
  rcases List.mem_cons.mp inside with rfl | deeper
  · exact ⟨key, present, equal⟩
  · obtain ⟨twin, inKey, equalTwin⟩ := alike.exists_mem_bodies deeper
    obtain ⟨other, presentOther, same⟩ := closed key present smallKey twin inKey
    refine ⟨other, presentOther, ?_⟩
    rcases same with rfl | equalOther
    · exact equalTwin
    · exact beq_trans equalOther equalTwin

/-- Next to a body that is still open, only the keys below it count as finished. -/
theorem Closed.append_body {size : Nat} {keys : List Element} (closed : Closed size keys)
    {body : Element} (small : body.size ≤ size) : Closed (body.size - 1) (keys ++ [body]) := by
  intro key present smaller nested inside
  have positive := body.one_le_size
  rcases List.mem_append.mp present with old | isBody
  · obtain ⟨other, presentOther, same⟩ := closed key old (by omega) nested inside
    exact ⟨other, List.mem_append_left _ presentOther, same⟩
  · obtain rfl := List.mem_singleton.mp isBody
    omega

/-- A body that is open closes with the subroutines inside it. -/
theorem Closed.foldl_insertNew {size : Nat} {keys : List Element} {body : Element}
    (closed : Closed size keys)
    (inner : Closed (body.size - 1) (body.bodies.foldl insertNew (keys ++ [body]))) :
    Closed size (body.bodies.foldl insertNew (keys ++ [body])) := by
  intro key present small nested inside
  rcases mem_or_mem_of_mem_foldl present with before | deeper
  · rcases List.mem_append.mp before with old | isBody
    · obtain ⟨other, presentOther, same⟩ := closed key old small nested inside
      exact ⟨other, mem_foldl_insertNew (List.mem_append_left _ presentOther), same⟩
    · obtain rfl := List.mem_singleton.mp isBody
      exact exists_mem_foldl _ inside
  · have smaller := size_lt_of_mem_bodies deeper
    exact inner key present (by omega) nested inside

end Element

/-! ## The table -/

namespace ProgramGraph

open Element (insertNew Closed)

mutual

/-- An element of which all parts have instructions is lowered. -/
theorem lower_supported {e : Element} (supported : e.unsupported = none)
    (table : List Routine) : ∃ nodes result, lower table e = .ok (nodes, result) := by
  match e, supported with
  | .timestamp t, _ => exact ⟨_, _, rfl⟩
  | .sequence children, supported =>
    rw [lower]
    exact lowerAll_supported supported table
  | .repeated body times, supported =>
    obtain ⟨nodes, result, ok⟩ := lower_supported (e := body) supported table
    exact ⟨_, _, by rw [lower, ok]; rfl⟩
  | .subroutine body, supported =>
    rw [lower]
    split
    · exact ⟨_, _, rfl⟩
    · obtain ⟨nodes, result, ok⟩ :=
        lower_supported (e := body) supported (table ++ [(⟨body, [], 0⟩ : Routine)])
      exact ⟨_, _, by rw [ok]; rfl⟩

theorem lowerAll_supported {elements : List Element}
    (supported : Element.unsupportedAll elements = none) (table : List Routine) :
    ∃ nodes result, lowerAll table elements = .ok (nodes, result) := by
  match elements, supported with
  | [], _ => exact ⟨_, _, rfl⟩
  | element :: rest, supported =>
    rw [Element.unsupportedAll, Option.or_eq_none_iff] at supported
    obtain ⟨first, middle, ok⟩ := lower_supported supported.1 table
    obtain ⟨others, result, okRest⟩ := lowerAll_supported supported.2 middle
    refine ⟨first ++ others, result, ?_⟩
    rw [lowerAll, ok, Except.ok_bind]
    dsimp only
    rw [okRest]
    rfl

end

mutual

/-- Lowering enters the subroutines of an element that are not in the table yet. -/
theorem lower_sources {table result : List Routine} {e : Element} {nodes : List Node}
    (ok : lower table e = .ok (nodes, result)) {size : Nat} (small : e.size ≤ size + 1)
    (closed : Closed size (table.map Routine.source)) :
    result.map Routine.source = e.bodies.foldl insertNew (table.map Routine.source) ∧
      Closed size (result.map Routine.source) := by
  match e, ok, small with
  | .timestamp t, ok, _ =>
    simp only [lower, Except.ok.injEq, Prod.mk.injEq] at ok
    obtain ⟨rfl, rfl⟩ := ok
    exact ⟨rfl, closed⟩
  | .sequence children, ok, small =>
    rw [lower] at ok
    rw [Element.size] at small
    exact lowerAll_sources ok (by omega) closed
  | .repeated body times, ok, small =>
    simp only [lower, Except.bind_eq_ok_iff, Except.pure_eq_ok, Except.ok.injEq,
      Prod.mk.injEq] at ok
    obtain ⟨⟨innerNodes, innerTable⟩, found, rfl, rfl⟩ := ok
    rw [Element.size] at small
    exact lower_sources found (by omega) closed
  | .subroutine body, ok, small =>
    rw [Element.size] at small
    simp only [lower] at ok
    split at ok
    · next index found =>
      simp only [Except.ok.injEq, Prod.mk.injEq] at ok
      obtain ⟨rfl, rfl⟩ := ok
      obtain ⟨inside, same, _⟩ := List.findIdx?_eq_some_iff_getElem.mp found
      have present : table[index].source ∈ table.map Routine.source :=
        List.mem_map_of_mem (List.getElem_mem inside)
      exact ⟨(closed.foldl_eq_self present same (by omega)).symm, closed⟩
    · next absent =>
      simp only [Except.bind_eq_ok_iff, Except.pure_eq_ok, Except.ok.injEq, Prod.mk.injEq] at ok
      obtain ⟨⟨innerNodes, innerTable⟩, found, rfl, rfl⟩ := ok
      have positive := body.one_le_size
      have sources : (table ++ [(⟨body, [], 0⟩ : Routine)]).map Routine.source
          = table.map Routine.source ++ [body] := by simp
      have opened : Closed (body.size - 1) (table.map Routine.source ++ [body]) :=
        closed.append_body (by omega)
      rw [← sources] at opened
      obtain ⟨inserted, inner⟩ := lower_sources found (by omega) opened
      rw [sources] at inserted
      -- The placeholder in the table has the source of the entry that replaces it.
      have kept : (innerTable.set table.length ⟨body, Node.joinBlocks innerNodes, 0⟩).map
          Routine.source = innerTable.map Routine.source := by
        obtain ⟨added, rfl, _⟩ := lower_spec found
        simp
      have isNew : insertNew (table.map Routine.source) body
          = table.map Routine.source ++ [body] := by
        refine Element.insertNew_of_forall_beq ?_
        simpa using List.findIdx?_eq_none_iff.mp absent
      rw [kept, Element.bodies, List.foldl_cons, isNew, inserted]
      exact ⟨rfl, closed.foldl_insertNew (inserted ▸ inner)⟩

theorem lowerAll_sources {table result : List Routine} {elements : List Element}
    {nodes : List Node} (ok : lowerAll table elements = .ok (nodes, result)) {size : Nat}
    (small : Element.sizeAll elements ≤ size + 1)
    (closed : Closed size (table.map Routine.source)) :
    result.map Routine.source
        = (Element.bodiesAll elements).foldl insertNew (table.map Routine.source) ∧
      Closed size (result.map Routine.source) := by
  match elements, ok, small with
  | [], ok, _ =>
    simp only [lowerAll, Except.ok.injEq, Prod.mk.injEq] at ok
    obtain ⟨rfl, rfl⟩ := ok
    exact ⟨rfl, closed⟩
  | element :: rest, ok, small =>
    simp only [lowerAll, Except.bind_eq_ok_iff, Except.pure_eq_ok, Except.ok.injEq,
      Prod.mk.injEq] at ok
    obtain ⟨⟨first, firstTable⟩, foundFirst, ⟨others, restTable⟩, foundRest, rfl, rfl⟩ := ok
    rw [Element.sizeAll] at small
    obtain ⟨inserted, closedFirst⟩ := lower_sources foundFirst (by omega) closed
    obtain ⟨insertedRest, closedRest⟩ := lowerAll_sources foundRest (by omega) closedFirst
    refine ⟨?_, closedRest⟩
    rw [insertedRest, inserted, Element.bodiesAll, List.foldl_append]

end

/-- The subroutines of a graph are those of the element, each one once. -/
theorem ofElement_sources {e : Element} {graph : ProgramGraph} (ok : ofElement e = .ok graph) :
    graph.routines.map Routine.source = Element.distinct e.bodies := by
  simp only [ofElement, Except.bind_eq_ok_iff, Except.pure_eq_ok, Except.ok.injEq] at ok
  obtain ⟨⟨nodes, routines⟩, found, rfl⟩ := ok
  have closed : Closed e.size (([] : List Routine).map Routine.source) := by simp [Closed]
  exact (lower_sources found (Nat.le_succ _) closed).1

theorem ofElement_supported {e : Element} (supported : e.unsupported = none) :
    ∃ graph, ofElement e = .ok graph := by
  obtain ⟨nodes, routines, ok⟩ := lower_supported supported []
  exact ⟨_, by rw [ofElement, ok]; rfl⟩

end ProgramGraph

end PulseSequencer

import Mathlib.Algebra.GroupWithZero.Nat
import PulseSequencer.Program.Layout
import PulseSequencer.Proofs.Program.Placement

/-!
# What fits into memory

The memory that a program takes can be read off its element: the length of the element for the main
program and, once for each distinct subroutine, the length of the body and one closing jump. The
layout places subroutines one by one and compares at every step, and comes to the same answer.

Results:
1. `placeRoutines_eq`: subroutines are placed if and only if they fit all together.
2. `layout_exact`: which region overflows, at every limit, and the length of a main program that
   fits. The comparisons that are made again for single nodes change nothing about it.
-/

namespace PulseSequencer

/-! ## The length of an element -/

namespace Element

mutual

/-- The addresses that an element takes where it stands. A loop needs four beside its body, a call
three. -/
def length : Element → Nat
  | .timestamp _ => 1
  | .trigger => 0
  | .sequence children => lengthAll children
  | .parallel children => lengthAll children
  | .repeated body _ => body.length + 4
  | .subroutine _ => 3

def lengthAll : List Element → Nat
  | [] => 0
  | element :: rest => element.length + lengthAll rest

end

/-- The addresses that the subroutines of an element take, equal ones together. -/
def sharedLength (e : Element) : Nat :=
  ((distinct e.bodies).map fun body => body.length + 1).sum

end Element

/-! ## The length of nodes -/

namespace Node

@[simp] theorem lengthAll_append (first second : List Node) :
    lengthAll (first ++ second) = lengthAll first + lengthAll second := by
  induction first with
  | nil => simp [lengthAll]
  | cons node rest ih => simp [lengthAll, ih, Nat.add_assoc]

@[simp] theorem lengthAll_cons (node : Node) (rest : List Node) :
    lengthAll (cons node rest) = node.length + lengthAll rest := by
  unfold cons
  split
  · simp [lengthAll, length, Nat.add_assoc]
  · rfl

@[simp] theorem lengthAll_joinBlocks (nodes : List Node) :
    lengthAll (joinBlocks nodes) = lengthAll nodes := by
  induction nodes with
  | nil => rfl
  | cons node rest ih =>
    show lengthAll (cons node (joinBlocks rest)) = _
    rw [lengthAll_cons, ih, lengthAll]

end Node

theorem Counted.lengthAll {sources : List Element} {e : Element} {nodes : List Node}
    (counted : Counted sources e nodes) : Node.lengthAll nodes = e.length := by
  induction counted with
  | timestamp t => rfl
  | nil => rfl
  | cons _ _ ihFirst ihRest =>
    rw [Node.lengthAll_append, ihFirst, ihRest]
    rfl
  | repeated times _ ih =>
    simp [Node.lengthAll, Node.length, Node.loopOverhead, Element.length, ih]
  | subroutine _ _ => rfl

namespace ProgramGraph

theorem ByHeight.lengthAll_main {e : Element} {graph : ProgramGraph} (byHeight : ByHeight e graph) :
    Node.lengthAll graph.main = e.length := by
  obtain ⟨nodes, counted, main⟩ := byHeight.main
  rw [main, Node.lengthAll_joinBlocks, counted.lengthAll]

theorem ByHeight.sum_length {e : Element} {graph : ProgramGraph} (byHeight : ByHeight e graph) :
    (graph.routines.map Routine.length).sum = e.sharedLength := by
  rw [Element.sharedLength, ← byHeight.sources, List.map_map]
  refine congrArg List.sum (List.map_congr_left fun routine present => ?_)
  obtain ⟨nodes, counted, body⟩ := (byHeight.routine routine present).body
  rw [Routine.length, body, Node.lengthAll_joinBlocks, counted.lengthAll]
  rfl

/-! ## Layouts -/

/-- Subroutines are placed if they fit all together, and then take what they need. -/
theorem placeRoutines_eq (routines : List Routine) (watermark : Nat) :
    (watermark < (routines.map Routine.length).sum ∧
      placeRoutines watermark routines = .error .subroutines) ∨
    (routines.map Routine.length).sum ≤ watermark ∧
      ∃ ranges, placeRoutines watermark routines
        = .ok (ranges, watermark - (routines.map Routine.length).sum) := by
  induction routines generalizing watermark with
  | nil => exact .inr ⟨Nat.zero_le _, [], rfl⟩
  | cons routine rest ih =>
    simp only [placeRoutines, List.map_cons, List.sum_cons]
    by_cases short : watermark < routine.length
    · exact .inl ⟨by omega, if_pos short⟩
    · rw [if_neg short]
      rcases ih (watermark - routine.length) with ⟨exceeds, failed⟩ | ⟨within, ranges, placed⟩
      · exact .inl ⟨by omega, by rw [failed]; rfl⟩
      · refine .inr ⟨by omega, ⟨watermark - routine.length, watermark - 1⟩ :: ranges, ?_⟩
        rw [placed, Except.ok_bind, Except.pure_eq_ok, Nat.sub_sub]

/-- The three outcomes of a layout, at limits one above the other. -/
theorem layout_outcome (graph : ProgramGraph) (top : Nat) :
    (top < (graph.routines.map Routine.length).sum ∧ graph.layout top = .error .subroutines) ∨
    ((graph.routines.map Routine.length).sum ≤ top ∧
      top ≤ (graph.routines.map Routine.length).sum + Node.lengthAll graph.main ∧
      graph.layout top = .error .main) ∨
    ((graph.routines.map Routine.length).sum + Node.lengthAll graph.main < top ∧
      ∃ layout, graph.layout top = .ok layout ∧
        layout.mainLength = Node.lengthAll graph.main) := by
  rcases placeRoutines_eq graph.routines top with ⟨exceeds, failed⟩ | ⟨within, ranges, placed⟩
  · exact .inl ⟨exceeds, by rw [layout, failed]; rfl⟩
  · simp only [layout, placed, Except.ok_bind]
    split
    · exact .inr (.inr ⟨by omega, _, rfl, rfl⟩)
    · exact .inr (.inl ⟨within, by omega, rfl⟩)

/-- Whether a program fits below `top` depends on two lengths of the element. The subroutines
overflow if they are longer than the memory, the main program if it has no free address below them,
and otherwise the program fits. Claiming the addresses of all nodes one by one comes to the same
answer, and refuses no body of a subroutine that fits. -/
theorem layout_exact {e : Element} (supported : e.unsupported = none) {limit : Nat}
    (low : e.height ≤ limit) (group : String) (top : Nat) :
    ∃ graph assigned, ofElement e = .ok graph ∧ graph.assignCounters group limit = .ok assigned ∧
      ((assigned.layout top).mapError (CompileError.memoryOverflow group)
          = .error (.memoryOverflow group .subroutines) ↔ top < e.sharedLength) ∧
      ((assigned.layout top).mapError (CompileError.memoryOverflow group)
          = .error (.memoryOverflow group .main) ↔
        e.sharedLength ≤ top ∧ top ≤ e.sharedLength + e.length) ∧
      (e.sharedLength + e.length < top →
        ∃ layout, (assigned.layout top).mapError (CompileError.memoryOverflow group) = .ok layout ∧
          layout.mainLength = e.length) ∧
      (top ≤ maxAddress → Placement.Agrees assigned group top) := by
  obtain ⟨graph, ok⟩ := ofElement_supported supported
  rcases assignCounters_of_height ok group limit with ⟨high, _⟩ | ⟨assigned, _, found, byHeight⟩
  · omega
  have agrees : top ≤ maxAddress → Placement.Agrees assigned group top :=
    Placement.agrees byHeight.solid group
  refine ⟨graph, assigned, ok, found, ?_⟩
  have outcome := assigned.layout_outcome top
  rw [byHeight.sum_length, byHeight.lengthAll_main] at outcome
  rcases outcome with ⟨exceeds, failed⟩ | ⟨fits, exceeds, failed⟩ | ⟨fits, layout, placed, length⟩
  · rw [failed]
    refine ⟨by simp [Except.mapError, exceeds], ?_, fun fits => by omega, agrees⟩
    simp only [Except.mapError, Except.error.injEq, CompileError.memoryOverflow.injEq, true_and,
      reduceCtorEq, false_iff]
    omega
  · rw [failed]
    refine ⟨?_, by simp [Except.mapError, fits, exceeds], fun within => by omega, agrees⟩
    simp only [Except.mapError, Except.error.injEq, CompileError.memoryOverflow.injEq, true_and,
      reduceCtorEq, false_iff]
    omega
  · rw [placed]
    simp only [Except.mapError, reduceCtorEq, false_iff]
    exact ⟨by omega, by omega, fun _ => ⟨layout, rfl, length⟩, agrees⟩

theorem layout_exact_loopOfCalls :
    loopOfCalls.sharedLength = 6 ∧ loopOfCalls.length = 11 ∧
    ∃ graph assigned, ofElement loopOfCalls = .ok graph ∧
      graph.assignCounters "board" 8 = .ok assigned ∧
      (assigned.layout 3).mapError (CompileError.memoryOverflow "board")
        = .error (.memoryOverflow "board" .subroutines) ∧
      (assigned.layout 15).mapError (CompileError.memoryOverflow "board")
        = .error (.memoryOverflow "board" .main) ∧
      (∃ layout, (assigned.layout 31).mapError (CompileError.memoryOverflow "board") = .ok layout ∧
        layout.mainLength = 11) ∧
      Placement.Agrees assigned "board" 31 := by
  have shared : loopOfCalls.sharedLength = 6 := by decide +kernel
  have main : loopOfCalls.length = 11 := by rfl
  have supported : loopOfCalls.unsupported = none := by rfl
  have low : loopOfCalls.height ≤ 8 := by decide
  obtain ⟨graph, assigned, ok, found, exceeds, _⟩ := layout_exact supported low "board" 3
  obtain ⟨graph', assigned', ok', found', _, collide, _⟩ := layout_exact supported low "board" 15
  obtain ⟨graph'', assigned'', ok'', found'', _, _, fits, agrees⟩ :=
    layout_exact supported low "board" 31
  obtain rfl : graph = graph' := Except.ok.inj (ok.symm.trans ok')
  obtain rfl : graph = graph'' := Except.ok.inj (ok.symm.trans ok'')
  obtain rfl : assigned = assigned' := Except.ok.inj (found.symm.trans found')
  obtain rfl : assigned = assigned'' := Except.ok.inj (found.symm.trans found'')
  rw [shared, main] at collide fits
  exact ⟨shared, main, graph, assigned, ok, found, exceeds.mpr (by rw [shared]; decide),
    collide.mpr ⟨by decide, by decide⟩, fits (by decide), agrees (by decide)⟩

end ProgramGraph

end PulseSequencer

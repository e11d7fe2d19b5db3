import Mathlib.Data.List.Flatten
import PulseSequencer.Proofs.Duration.Overflow
import PulseSequencer.Proofs.Element.Equality

/-!
# The elements of an element

The nodes of an element as one list, every node before the nodes in it.

Results:
1. `Element.subelements_trans`: what is in a node of an element is in the element.
2. `Element.beq_of_finite`: an element equals itself unless a duration in it overflows.
3. `Element.finite_subelements`: if nothing in a finite element runs side by side, all durations in
   it are finite.
-/

namespace PulseSequencer.Element

open Duration

mutual

/-- An element and all that is in it, in the order in which it is written down. -/
def subelements : Element → List Element
  | .timestamp t => [.timestamp t]
  | .trigger => [.trigger]
  | .sequence children => .sequence children :: subelementsAll children
  | .parallel children => .parallel children :: subelementsAll children
  | .repeated body times => .repeated body times :: body.subelements
  | .subroutine body => .subroutine body :: body.subelements

def subelementsAll : List Element → List Element
  | [] => []
  | element :: rest => element.subelements ++ subelementsAll rest

end

theorem subelementsAll_eq_flatMap (elements : List Element) :
    subelementsAll elements = elements.flatMap subelements := by
  induction elements with
  | nil => rfl
  | cons element rest ih => rw [subelementsAll, ih, List.flatMap_cons]

theorem mem_subelementsAll {part : Element} {elements : List Element} :
    part ∈ subelementsAll elements ↔ ∃ element ∈ elements, part ∈ element.subelements := by
  rw [subelementsAll_eq_flatMap, List.mem_flatMap]

theorem mem_subelements_self (e : Element) : e ∈ e.subelements := by
  cases e <;> simp [subelements]

mutual

theorem subelements_trans {e part : Element} (inside : part ∈ e.subelements) :
    part.subelements ⊆ e.subelements := by
  match e, inside with
  | .timestamp t, inside =>
    obtain rfl := List.mem_singleton.mp inside
    exact List.Subset.refl _
  | .trigger, inside =>
    obtain rfl := List.mem_singleton.mp inside
    exact List.Subset.refl _
  | .sequence children, inside =>
    rcases List.mem_cons.mp inside with rfl | deeper
    · exact List.Subset.refl _
    · exact List.subset_cons_of_subset _ (subelementsAll_trans deeper)
  | .parallel children, inside =>
    rcases List.mem_cons.mp inside with rfl | deeper
    · exact List.Subset.refl _
    · exact List.subset_cons_of_subset _ (subelementsAll_trans deeper)
  | .repeated body times, inside =>
    rcases List.mem_cons.mp inside with rfl | deeper
    · exact List.Subset.refl _
    · exact List.subset_cons_of_subset _ (subelements_trans deeper)
  | .subroutine body, inside =>
    rcases List.mem_cons.mp inside with rfl | deeper
    · exact List.Subset.refl _
    · exact List.subset_cons_of_subset _ (subelements_trans deeper)

theorem subelementsAll_trans {elements : List Element} {part : Element}
    (inside : part ∈ subelementsAll elements) : part.subelements ⊆ subelementsAll elements := by
  match elements, inside with
  | element :: rest, inside =>
    rcases List.mem_append.mp inside with inFirst | inRest
    · exact List.subset_append_of_subset_left _ (subelements_trans inFirst)
    · exact List.subset_append_of_subset_right _ (subelementsAll_trans inRest)

end

/-! ## Equality -/

theorem duration_beq_self {d : Duration} (finite : d.Finite) : (d == d) = true :=
  Binary64.numEq_iff.mpr ⟨value_ne_nan finite, .refl _⟩

mutual

/-- An element differs from itself only where a duration in it overflows. -/
theorem beq_of_finite : ∀ {e : Element},
    (∀ part ∈ e.subelements, part.duration.Finite) → (e == e) = true
  | .timestamp t, finite => by
    rw [beq_timestamp]
    exact Bool.and_eq_true_iff.mpr
      ⟨duration_beq_self (finite _ (mem_subelements_self _)), BEq.rfl⟩
  | .trigger, _ => rfl
  | .sequence children, finite => by
    obtain ⟨whole, parts⟩ := List.forall_mem_cons.mp finite
    rw [beq_sequence, beqAll_of_finite parts, duration_beq_self whole]
    rfl
  | .parallel children, finite => by
    obtain ⟨whole, parts⟩ := List.forall_mem_cons.mp finite
    rw [beq_parallel, beqAll_of_finite parts, duration_beq_self whole]
    rfl
  | .repeated body times, finite => by
    obtain ⟨whole, parts⟩ := List.forall_mem_cons.mp finite
    rw [beq_repeated, beq_of_finite parts, duration_beq_self whole, Bool.and_true, Bool.and_true]
    exact BEq.rfl
  | .subroutine body, finite => by
    rw [beq_subroutine]
    exact beq_of_finite (List.forall_mem_cons.mp finite).2

theorem beqAll_of_finite : ∀ {elements : List Element},
    (∀ part ∈ subelementsAll elements, part.duration.Finite) → beqAll elements elements = true
  | [], _ => rfl
  | element :: rest, finite => by
    obtain ⟨first, later⟩ := List.forall_mem_append.mp finite
    rw [beqAll_cons, beq_of_finite first, beqAll_of_finite later]
    rfl

end

/-- Nothing in the element runs side by side. -/
def Serial (e : Element) : Prop :=
  ∀ part ∈ e.subelements, ∀ children, part ≠ .parallel children

mutual

/-- A sum or a multiple is finite only if its parts are. Only among parallel elements the longest
hides the others. -/
theorem finite_subelements : ∀ {e : Element}, e.Serial → e.duration.Finite →
    ∀ part ∈ e.subelements, part.duration.Finite
  | .timestamp _, _, finite => List.forall_mem_singleton.mpr finite
  | .trigger, _, finite => List.forall_mem_singleton.mpr finite
  | .sequence children, serial, finite => by
    refine List.forall_mem_cons.mpr ⟨finite, ?_⟩
    rw [duration, total] at finite
    exact finite_subelementsAll (List.forall_mem_cons.mp serial).2 (total_spec finite).2.1
  | .parallel children, serial, _ => absurd rfl (serial _ (mem_subelements_self _) children)
  | .repeated body times, serial, finite => by
    refine List.forall_mem_cons.mpr ⟨finite, ?_⟩
    rw [duration] at finite
    exact finite_subelements (List.forall_mem_cons.mp serial).2 (scale_spec finite).1
  | .subroutine body, serial, finite =>
    List.forall_mem_cons.mpr ⟨finite, finite_subelements (List.forall_mem_cons.mp serial).2 finite⟩

theorem finite_subelementsAll : ∀ {elements : List Element},
    (∀ part ∈ subelementsAll elements, ∀ children, part ≠ .parallel children) →
    (∀ d ∈ durations elements, d.Finite) →
    ∀ part ∈ subelementsAll elements, part.duration.Finite
  | [], _, _ => by simp [subelementsAll]
  | element :: rest, serial, finite => by
    obtain ⟨serialFirst, serialRest⟩ := List.forall_mem_append.mp serial
    obtain ⟨first, later⟩ := List.forall_mem_cons.mp finite
    exact List.forall_mem_append.mpr
      ⟨finite_subelements serialFirst first, finite_subelementsAll serialRest later⟩

end

end PulseSequencer.Element

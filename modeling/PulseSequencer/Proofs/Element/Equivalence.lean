import PulseSequencer.Proofs.Element.Preservation
import PulseSequencer.Proofs.Element.Subelements

/-!
# Equality is a partial equivalence

Equality of the structure of elements is symmetric and transitive. It is reflexive on the elements
in which every duration is a number. Durations of composed elements are sums and products of any
size, and one that overflows is not a number.

Results:
1. `Element.beq_symm`: equality is symmetric.
2. `Element.beq_self_iff`: an element equals itself exactly if all durations in it are numbers.
3. `Element.finite_of_safe`: up to `2 ^ 1019` seconds no duration overflows, whatever is composed.
4. `Element.beq_self_of_safe`: so an element that short is equal to itself.
-/

namespace PulseSequencer

/-! ## Symmetry -/

theorem Duration.beq_symm {d e : Duration} (equal : (d == e) = true) : (e == d) = true := by
  obtain ⟨notNan, same⟩ := Binary64.numEq_iff.mp equal
  refine Binary64.numEq_iff.mpr ⟨fun isNan => ?_, same.symm⟩
  rcases same with same | ⟨_, zero⟩
  · exact notNan (same.trans isNan)
  · rw [isNan] at zero
    cases zero

theorem Timestamp.beq_symm {s t : Timestamp} (equal : (s == t) = true) : (t == s) = true := by
  obtain ⟨durations, updates⟩ := Bool.and_eq_true_iff.mp equal
  exact Bool.and_eq_true_iff.mpr ⟨Duration.beq_symm durations, BEq.symm updates⟩

namespace Element

open Duration

mutual

theorem beq_symm {a b : Element} (equal : (b == a) = true) : (a == b) = true := by
  match a, b, equal with
  | .timestamp s, .timestamp t, equal =>
    rw [beq_timestamp] at equal ⊢
    exact Timestamp.beq_symm equal
  | .trigger, .trigger, _ => rfl
  | .sequence as, .sequence bs, equal =>
    rw [beq_sequence, Bool.and_eq_true] at equal ⊢
    exact ⟨beqAll_symm equal.1, Duration.beq_symm equal.2⟩
  | .parallel as, .parallel bs, equal =>
    rw [beq_parallel, Bool.and_eq_true] at equal ⊢
    exact ⟨beqAll_symm equal.1, Duration.beq_symm equal.2⟩
  | .repeated a m, .repeated b n, equal =>
    rw [beq_repeated, Bool.and_eq_true, Bool.and_eq_true] at equal ⊢
    obtain ⟨⟨times, bodies⟩, durations⟩ := equal
    exact ⟨⟨BEq.symm times, beq_symm bodies⟩, Duration.beq_symm durations⟩
  | .subroutine a, .subroutine b, equal =>
    rw [beq_subroutine] at equal ⊢
    exact beq_symm equal

theorem beqAll_symm {as bs : List Element} (equal : beqAll as bs = true) :
    beqAll bs as = true := by
  match as, bs, equal with
  | [], [], _ => rfl
  | a :: as, b :: bs, equal =>
    rw [beqAll_cons, Bool.and_eq_true] at equal ⊢
    exact ⟨beq_symm equal.1, beqAll_symm equal.2⟩

end

/-! ## Reflexivity -/

theorem duration_beq_self_iff {d : Duration} : (d == d) = true ↔ d.value ≠ .nan :=
  Binary64.numEq_iff.trans (and_iff_left (.refl _))

mutual

/-- An element equals itself exactly if the durations in it are numbers. -/
theorem beq_self_iff : ∀ {e : Element},
    (e == e) = true ↔ ∀ part ∈ e.subelements, part.duration.value ≠ .nan
  | .timestamp t => by
    rw [beq_timestamp, subelements, List.forall_mem_singleton]
    refine iff_of_true (Bool.and_eq_true_iff.mpr ⟨?_, BEq.rfl⟩) (value_ne_nan t.finite)
    exact duration_beq_self t.finite
  | .trigger => by
    rw [subelements, List.forall_mem_singleton]
    exact iff_of_true rfl (value_ne_nan finite_zero)
  | .sequence children => by
    rw [beq_sequence, Bool.and_eq_true, beqAll_self_iff, duration_beq_self_iff, subelements,
      List.forall_mem_cons, and_comm]
  | .parallel children => by
    rw [beq_parallel, Bool.and_eq_true, beqAll_self_iff, duration_beq_self_iff, subelements,
      List.forall_mem_cons, and_comm]
  | .repeated body times => by
    rw [beq_repeated, Bool.and_eq_true, Bool.and_eq_true, beq_self_iff, duration_beq_self_iff,
      subelements, List.forall_mem_cons, and_comm,
      and_iff_right (BEq.rfl : (times == times) = true)]
  | .subroutine body => by
    rw [beq_subroutine, beq_self_iff, subelements, List.forall_mem_cons]
    exact (and_iff_right_of_imp fun numbers => numbers body (mem_subelements_self body)).symm

theorem beqAll_self_iff : ∀ {elements : List Element}, beqAll elements elements = true ↔
    ∀ part ∈ subelementsAll elements, part.duration.value ≠ .nan
  | [] => iff_of_true rfl (List.forall_mem_nil _)
  | element :: rest => by
    rw [beqAll_cons, Bool.and_eq_true, beq_self_iff, beqAll_self_iff, subelementsAll,
      List.forall_mem_append]

end

/-! ## Durations that are safe -/

theorem finite_longest {durations : List Duration} (allFinite : ∀ d ∈ durations, d.Finite) :
    (longest durations).Finite := by
  cases durations with
  | nil => exact finite_zero
  | cons first rest =>
    have picked := @longest_mem ((first :: rest).map fun d => (d, 0)) (by simp)
    obtain ⟨d, present, same⟩ := List.mem_map.mp picked
    rw [List.map_map, Function.comp_def, List.map_id', Prod.mk.injEq] at same
    rw [← same.1]
    exact allFinite d present

mutual

/-- Where every part of an element lasts for a safe time, its duration does not overflow. -/
theorem finite_of_safe : ∀ {e : Element}, (∀ part ∈ e.subelements, part.exactDuration ≤ safe) →
    e.duration.Finite
  | .timestamp t, _ => t.finite
  | .trigger, _ => finite_zero
  | .sequence children, small => by
    obtain ⟨whole, parts⟩ := List.forall_mem_cons.mp small
    exact finite_sequence (finite_durations_of_safe parts) whole
  | .parallel children, small => by
    exact finite_longest (finite_durations_of_safe (List.forall_mem_cons.mp small).2)
  | .repeated body times, small => by
    obtain ⟨whole, parts⟩ := List.forall_mem_cons.mp small
    exact finite_repeated (finite_of_safe parts) whole
  | .subroutine body, small => by
    rw [duration]
    exact finite_of_safe (List.forall_mem_cons.mp small).2

theorem finite_durations_of_safe : ∀ {elements : List Element},
    (∀ part ∈ subelementsAll elements, part.exactDuration ≤ safe) →
    ∀ d ∈ durations elements, d.Finite
  | [], _ => List.forall_mem_nil _
  | element :: rest, small => by
    obtain ⟨first, later⟩ := List.forall_mem_append.mp small
    exact List.forall_mem_cons.mpr ⟨finite_of_safe first, finite_durations_of_safe later⟩

end

/-- An element equals itself if every part of it lasts for a safe time. -/
theorem beq_self_of_safe {e : Element} (small : ∀ part ∈ e.subelements, part.exactDuration ≤ safe) :
    (e == e) = true := by
  refine beq_of_finite fun part inside => finite_of_safe fun deeper inPart => ?_
  exact small deeper (subelements_trans inside inPart)

end Element

end PulseSequencer

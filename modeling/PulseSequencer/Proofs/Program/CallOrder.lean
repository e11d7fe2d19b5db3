import Mathlib.Data.Finset.Card
import Mathlib.Logic.Relation
import PulseSequencer.Program.Counters

/-!
# The order of subroutines

`ProgramGraph.calleesFirst` follows calls from every subroutine and appends each one after the
subroutines it calls. Chains of calls are cut off after as many subroutines as there are, which no
chain exceeds as long as calls are not circular.

A measure that decreases along every call takes the place of "not circular": there is one exactly if
no chain of calls leads back to its start (`Descending.acyclic`, `descending_of_acyclic`). The main
result is `calleesFirst_spec`: the order holds every subroutine, each one once and after those it
calls.
-/

namespace PulseSequencer.ProgramGraph

/-- A list without duplicates in which the callees of every entry come before it. -/
inductive CalleesBefore (calls : Nat → List Nat) : List Nat → Prop
  | nil : CalleesBefore calls []
  | snoc {order : List Nat} {routine : Nat} :
      CalleesBefore calls order → routine ∉ order → (∀ callee ∈ calls routine, callee ∈ order) →
      CalleesBefore calls (order ++ [routine])

namespace CalleesBefore

variable {calls : Nat → List Nat} {order : List Nat}

theorem nodup (ordered : CalleesBefore calls order) : order.Nodup := by
  induction ordered with
  | nil => exact List.nodup_nil
  | snoc _ fresh _ ih =>
    refine List.nodup_append.mpr ⟨ih, List.nodup_singleton _, fun entry old last present => ?_⟩
    obtain rfl := List.mem_singleton.mp present
    exact fun same => fresh (same ▸ old)

/-- A callee stands at an earlier place than its caller. -/
theorem idxOf_lt (ordered : CalleesBefore calls order) {caller callee : Nat}
    (present : caller ∈ order) (called : callee ∈ calls caller) :
    order.idxOf callee < order.idxOf caller := by
  induction ordered with
  | nil => cases present
  | @snoc order routine ordered fresh before ih =>
    by_cases early : caller ∈ order
    · have less := ih early
      have earlier : callee ∈ order :=
        List.idxOf_lt_length_iff.mp (less.trans (List.idxOf_lt_length_of_mem early))
      rw [List.idxOf_append_of_mem earlier, List.idxOf_append_of_mem early]
      exact less
    · obtain rfl : caller = routine := by simpa [early] using present
      rw [List.idxOf_append_of_mem (before callee called), List.idxOf_append_of_notMem fresh]
      exact (List.idxOf_lt_length_of_mem (before callee called)).trans_le (Nat.le_add_right _ _)

end CalleesBefore

/-- Calls between the subroutines below `count` decrease a measure. -/
structure Descending (calls : Nat → List Nat) (measure : Nat → Nat) (count : Nat) : Prop where
  inside : ∀ routine, ∀ callee ∈ calls routine, callee < count
  decrease : ∀ routine, ∀ callee ∈ calls routine, measure callee < measure routine

/-- Calls do not lead back to the subroutine that they start from. -/
theorem Descending.acyclic {calls : Nat → List Nat} {measure : Nat → Nat} {count : Nat}
    (descending : Descending calls measure count) (routine : Nat) :
    ¬ Relation.TransGen (fun caller callee => callee ∈ calls caller) routine routine := by
  intro circle
  have decrease : ∀ {callee}, Relation.TransGen (fun caller callee => callee ∈ calls caller)
      routine callee → measure callee < measure routine := by
    intro callee chain
    induction chain with
    | single called => exact descending.decrease _ _ called
    | tail _ called ih => exact (descending.decrease _ _ called).trans ih
  exact lt_irrefl _ (decrease circle)

/-- The number of subroutines that are called, directly or not, decreases along every call. -/
theorem descending_of_acyclic {calls : Nat → List Nat} {count : Nat}
    (inside : ∀ caller, ∀ callee ∈ calls caller, callee < count)
    (acyclic : ∀ routine,
      ¬ Relation.TransGen (fun caller callee => callee ∈ calls caller) routine routine) :
    ∃ measure, Descending calls measure count := by
  classical
  let reached (routine : Nat) : Finset Nat := (Finset.range count).filter
    (Relation.TransGen (fun caller callee => callee ∈ calls caller) routine)
  refine ⟨fun routine => (reached routine).card, inside, fun caller callee called => ?_⟩
  refine Finset.card_lt_card (Finset.ssubset_iff_of_subset ?_ |>.mpr ⟨callee, ?_, ?_⟩)
  · intro routine present
    obtain ⟨inRange, chain⟩ := Finset.mem_filter.mp present
    exact Finset.mem_filter.mpr ⟨inRange, .head called chain⟩
  · exact Finset.mem_filter.mpr ⟨Finset.mem_range.mpr (inside caller callee called), .single called⟩
  · exact fun circle => acyclic callee (Finset.mem_filter.mp circle).2

/-- What following calls from some subroutines does to the finished ones: it appends subroutines,
all of which are `allowed`. -/
structure Finishes (calls : Nat → List Nat) (allowed : Nat → Prop)
    (finished result : List Nat) : Prop where
  ordered : CalleesBefore calls result
  appended : ∃ added, result = finished ++ added ∧ ∀ routine ∈ added, allowed routine

section

variable {calls : Nat → List Nat} {measure : Nat → Nat} {count : Nat} {allowed : Nat → Prop}

theorem Finishes.refl {finished : List Nat} (ordered : CalleesBefore calls finished) :
    Finishes calls allowed finished finished :=
  ⟨ordered, [], (List.append_nil _).symm, by simp⟩

theorem Finishes.trans {first second third : List Nat}
    (before : Finishes calls allowed first second) (after : Finishes calls allowed second third) :
    Finishes calls allowed first third := by
  obtain ⟨_, added, rfl, allowedAdded⟩ := before
  obtain ⟨ordered, more, rfl, allowedMore⟩ := after
  refine ⟨ordered, added ++ more, by simp, fun routine present => ?_⟩
  rcases List.mem_append.mp present with early | late
  · exact allowedAdded routine early
  · exact allowedMore routine late

theorem Finishes.weaken {finished result : List Nat} {allowed' : Nat → Prop}
    (finishes : Finishes calls allowed finished result)
    (weaker : ∀ routine, allowed routine → allowed' routine) :
    Finishes calls allowed' finished result := by
  obtain ⟨ordered, added, same, all⟩ := finishes
  exact ⟨ordered, added, same, fun routine present => weaker routine (all routine present)⟩

theorem Finishes.mem {first second : List Nat} {routine : Nat}
    (finishes : Finishes calls allowed first second) (present : routine ∈ first) :
    routine ∈ second := by
  obtain ⟨_, added, rfl, _⟩ := finishes
  exact List.mem_append_left _ present

/-- Following calls one after the other, if each of them finishes its subroutine. -/
theorem foldl_finish {depth : Nat} {routines finished : List Nat}
    (step : ∀ routine ∈ routines, ∀ finished, CalleesBefore calls finished →
      Finishes calls allowed finished (finish calls depth finished routine) ∧
      routine ∈ finish calls depth finished routine)
    (ordered : CalleesBefore calls finished) :
    Finishes calls allowed finished (routines.foldl (finish calls depth) finished) ∧
    ∀ routine ∈ routines, routine ∈ routines.foldl (finish calls depth) finished := by
  induction routines generalizing finished with
  | nil => exact ⟨.refl ordered, by simp⟩
  | cons first rest ih =>
    obtain ⟨finishes, present⟩ := step first List.mem_cons_self finished ordered
    obtain ⟨finishesRest, presentRest⟩ :=
      ih (fun routine inRest => step routine (List.mem_cons_of_mem _ inRest)) finishes.ordered
    refine ⟨finishes.trans finishesRest, fun routine inList => ?_⟩
    rcases List.mem_cons.mp inList with rfl | inRest
    · exact finishesRest.mem present
    · exact presentRest routine inRest

/-- A subroutine below the chain of its callers makes that chain longer by one. -/
theorem insert_callers {routine : Nat} {callers : Finset Nat} (inside : routine < count)
    (subset : callers ⊆ Finset.range count)
    (above : ∀ caller ∈ callers, measure routine < measure caller) :
    insert routine callers ⊆ Finset.range count ∧
    (insert routine callers).card = callers.card + 1 := by
  constructor
  · intro caller present
    rcases Finset.mem_insert.mp present with rfl | old
    · exact Finset.mem_range.mpr inside
    · exact subset old
  · exact Finset.card_insert_of_notMem fun present => lt_irrefl _ (above routine present)

theorem card_callers_lt {routine : Nat} {callers : Finset Nat} (inside : routine < count)
    (subset : callers ⊆ Finset.range count)
    (above : ∀ caller ∈ callers, measure routine < measure caller) : callers.card < count := by
  obtain ⟨subset', card⟩ := insert_callers inside subset above
  have le := Finset.card_le_card subset'
  rwa [card, Finset.card_range] at le

/-- A callee is below the subroutine that calls it and below its callers. -/
theorem Descending.below_callers (descending : Descending calls measure count)
    {routine callee : Nat} {callers : Finset Nat} (called : callee ∈ calls routine)
    (above : ∀ caller ∈ callers, measure routine < measure caller) :
    ∀ caller ∈ insert routine callers, measure callee < measure caller := by
  have decrease := descending.decrease routine callee called
  rw [Finset.forall_mem_insert]
  exact ⟨decrease, fun caller old => decrease.trans (above caller old)⟩

/-- The chain of callers above a subroutine has distinct entries, because their measures increase.
So `depth` runs out only after all `count` subroutines stand in the chain. -/
theorem finish_spec (descending : Descending calls measure count) {depth : Nat} :
    ∀ {routine : Nat} {finished : List Nat} {callers : Finset Nat},
      CalleesBefore calls finished → routine < count → callers ⊆ Finset.range count →
      (∀ caller ∈ callers, measure routine < measure caller) → count ≤ depth + callers.card →
      Finishes calls (fun entry => entry < count ∧ measure entry ≤ measure routine) finished
        (finish calls depth finished routine) ∧
      routine ∈ finish calls depth finished routine := by
  induction depth with
  | zero =>
    intro routine finished callers _ inside subset above room
    have := card_callers_lt inside subset above
    omega
  | succ depth ih =>
    intro routine finished callers ordered inside subset above room
    rw [finish]
    split
    · next present => exact ⟨.refl ordered, present⟩
    · next absent =>
      obtain ⟨subset', card⟩ := insert_callers inside subset above
      have callee : ∀ callee ∈ calls routine, ∀ finished, CalleesBefore calls finished →
          Finishes calls (fun entry => entry < count ∧ measure entry < measure routine) finished
            (finish calls depth finished callee) ∧
          callee ∈ finish calls depth finished callee := by
        intro callee called finished ordered
        have decrease := descending.decrease routine callee called
        obtain ⟨finishes, present⟩ := ih ordered (descending.inside routine callee called) subset'
          (descending.below_callers called above) (by omega)
        exact ⟨finishes.weaken fun entry ⟨below, le⟩ => ⟨below, by omega⟩, present⟩
      obtain ⟨finishes, present⟩ := foldl_finish callee ordered
      obtain ⟨added, same, bounded⟩ := finishes.appended
      -- The callees and what they call have smaller measures, so the subroutine is not among them.
      have fresh : routine ∉ (calls routine).foldl (finish calls depth) finished := by
        rw [same, List.mem_append]
        rintro (old | new)
        · exact absent old
        · exact lt_irrefl _ (bounded routine new).2
      refine ⟨⟨.snoc finishes.ordered fresh present, added ++ [routine], ?_, ?_⟩, by simp⟩
      · rw [same, List.append_assoc]
      · intro entry inList
        rcases List.mem_append.mp inList with early | last
        · exact ⟨(bounded entry early).1, (bounded entry early).2.le⟩
        · obtain rfl := List.mem_singleton.mp last
          exact ⟨inside, le_rfl⟩

end

/-- All subroutines stand in the order, each one after those it calls. -/
theorem calleesFirst_spec {graph : ProgramGraph} {measure : Nat → Nat}
    (descending : Descending graph.callees measure graph.routines.length) :
    CalleesBefore graph.callees graph.calleesFirst ∧
    ∀ routine, routine ∈ graph.calleesFirst ↔ routine < graph.routines.length := by
  have step : ∀ routine ∈ List.range graph.routines.length, ∀ finished,
      CalleesBefore graph.callees finished →
      Finishes graph.callees (· < graph.routines.length) finished
        (finish graph.callees graph.routines.length finished routine) ∧
      routine ∈ finish graph.callees graph.routines.length finished routine := by
    intro routine inRange finished ordered
    have room : graph.routines.length ≤ graph.routines.length + (∅ : Finset Nat).card := by simp
    obtain ⟨finishes, present⟩ :=
      finish_spec descending ordered (List.mem_range.mp inRange) (by simp) (by simp) room
    exact ⟨finishes.weaken fun _ ⟨below, _⟩ => below, present⟩
  obtain ⟨finishes, present⟩ := foldl_finish step CalleesBefore.nil
  refine ⟨finishes.ordered, fun routine => ⟨fun inOrder => ?_, fun inside => ?_⟩⟩
  · obtain ⟨added, same, below⟩ := finishes.appended
    rw [List.nil_append] at same
    exact below routine (same ▸ inOrder)
  · exact present routine (List.mem_range.mpr inside)

end PulseSequencer.ProgramGraph

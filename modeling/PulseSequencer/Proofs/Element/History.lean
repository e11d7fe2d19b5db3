import PulseSequencer.Proofs.Element.Duration
import PulseSequencer.Proofs.Update

/-!
# Output histories

What the outputs of a channel group show over time: states that are held, and waits for a trigger.
How a state is cut into intervals cannot be seen, so histories are compared in a normal form
without empty intervals and without neighbouring intervals of equal state.

Results:
1. `Playing.hold_andThen_hold`: holding a state twice is holding it once.
2. `Playing.Same.andThen`, `Playing.Same.times`: parts may be replaced by what plays the same.
3. `Playing.Same.history`: what plays the same has the same history and the same final state.
-/

namespace PulseSequencer

/-! ## Events -/

/-- What the outputs of a channel group show. A state holds the last record of each channel. -/
inductive Event where
  | hold (steps : ℤ) (state : UpdateMap)
  | trigger

namespace Event

/-- The same event, where records are compared as numbers. -/
inductive Same : Event → Event → Prop
  | hold {steps : ℤ} {state state' : UpdateMap} (equal : (state == state') = true) :
      Same (.hold steps state) (.hold steps state')
  | trigger : Same .trigger .trigger

theorem Same.refl (event : Event) : event.Same event := by
  cases event with
  | hold steps state => exact .hold BEq.rfl
  | trigger => exact .trigger

theorem Same.symm {first second : Event} (same : first.Same second) : second.Same first := by
  cases same with
  | hold equal => exact .hold (BEq.symm equal)
  | trigger => exact .trigger

theorem Same.trans {first second third : Event} (before : first.Same second)
    (after : second.Same third) : first.Same third := by
  cases before with
  | hold equal =>
    cases after with
    | hold equal' => exact .hold (BEq.trans equal equal')
  | trigger => exact after

/-- An event before a history in normal form. -/
def join : Event → List Event → List Event
  | .trigger, later => .trigger :: later
  | .hold steps state, later =>
    if steps = 0 then later
    else match later with
      | .hold more state' :: later' =>
        if state == state' then .hold (steps + more) state :: later'
        else .hold steps state :: later
      | _ => .hold steps state :: later

/-- The normal form of a history. -/
def normalize (events : List Event) : List Event :=
  events.foldr join []

/-- Histories in normal form that show the same. -/
def SameHistory : List Event → List Event → Prop :=
  List.Forall₂ Same

theorem SameHistory.refl (events : List Event) : SameHistory events events :=
  List.forall₂_same.mpr fun event _ => .refl event

theorem SameHistory.symm {first second : List Event} (same : SameHistory first second) :
    SameHistory second first :=
  List.Forall₂.flip (same.imp fun _ _ => Same.symm)

theorem SameHistory.trans {first second third : List Event} (before : SameHistory first second)
    (after : SameHistory second third) : SameHistory first third := by
  induction before generalizing third with
  | nil => exact after
  | cons same _ ih =>
    cases after with
    | cons same' after => exact .cons (same.trans same') (ih after)

theorem join_congr {event event' : Event} {later later' : List Event} (same : event.Same event')
    (sameLater : SameHistory later later') :
    SameHistory (join event later) (join event' later') := by
  cases same with
  | trigger => exact .cons .trigger sameLater
  | @hold steps state state' equal =>
    simp only [join]
    split
    · exact sameLater
    · cases sameLater with
      | nil => exact .cons (.hold equal) .nil
      | cons sameFirst sameRest =>
        cases sameFirst with
        | trigger => exact .cons (.hold equal) (.cons .trigger sameRest)
        | @hold more next next' equalNext =>
          dsimp only
          rw [BEq.congr_left equal, BEq.congr_right equalNext]
          split
          · exact .cons (.hold equal) sameRest
          · exact .cons (.hold equal) (.cons (.hold equalNext) sameRest)

/-- Two intervals of equal state are one. -/
theorem join_hold_join_hold {first second : ℤ} {state state' : UpdateMap} (later : List Event)
    (firstNonneg : 0 ≤ first) (secondNonneg : 0 ≤ second) (equal : (state == state') = true) :
    SameHistory (join (.hold first state) (join (.hold second state') later))
      (join (.hold (first + second) state) later) := by
  by_cases firstZero : first = 0
  · rw [firstZero, zero_add]
    simp only [join, if_true]
    exact join_congr (.hold (BEq.symm equal)) (.refl later)
  by_cases secondZero : second = 0
  · rw [secondZero, add_zero]
    simp only [join, if_true]
    exact .refl _
  have sumNonzero : first + second ≠ 0 := by omega
  simp only [join, if_neg firstZero, if_neg secondZero, if_neg sumNonzero]
  cases later with
  | nil =>
    dsimp only
    rw [if_pos equal]
    exact .refl _
  | cons event later =>
    cases event with
    | trigger =>
      dsimp only
      rw [if_pos equal]
      exact .refl _
    | hold more next =>
      dsimp only
      rw [← BEq.congr_left equal]
      by_cases equalNext : (state == next) = true
      · rw [if_pos equalNext, if_pos equalNext]
        dsimp only
        rw [if_pos equal, add_assoc]
        exact .refl _
      · rw [if_neg equalNext, if_neg equalNext]
        dsimp only
        rw [if_pos equal]
        exact .refl _

/-- Outputs that show the same, whatever is shown afterwards. -/
def SameOutput (first second : List Event) : Prop :=
  ∀ later later' : List Event, SameHistory later later' →
    SameHistory (first.foldr join later) (second.foldr join later')

namespace SameOutput

variable {first second third : List Event}

theorem refl (events : List Event) : SameOutput events events := by
  induction events with
  | nil => exact fun _ _ same => same
  | cons event events ih => exact fun _ _ same => join_congr (.refl event) (ih _ _ same)

theorem symm (same : SameOutput first second) : SameOutput second first :=
  fun _ _ sameLater => (same _ _ sameLater.symm).symm

theorem trans (before : SameOutput first second) (after : SameOutput second third) :
    SameOutput first third :=
  fun _ _ sameLater => (before _ _ sameLater).trans (after _ _ (.refl _))

theorem append {first' second' : List Event} (before : SameOutput first second)
    (after : SameOutput first' second') : SameOutput (first ++ first') (second ++ second') := by
  intro later later' sameLater
  rw [List.foldr_append, List.foldr_append]
  exact before _ _ (after _ _ sameLater)

theorem hold {steps : ℤ} {state state' : UpdateMap} (equal : (state == state') = true) :
    SameOutput [.hold steps state] [.hold steps state'] :=
  fun _ _ sameLater => join_congr (.hold equal) sameLater

theorem hold_zero (state : UpdateMap) : SameOutput [.hold 0 state] [] :=
  fun _ _ sameLater => sameLater

theorem hold_hold {steps steps' : ℤ} {state state' : UpdateMap} (nonneg : 0 ≤ steps)
    (nonneg' : 0 ≤ steps') (equal : (state == state') = true) :
    SameOutput [.hold steps state, .hold steps' state'] [.hold (steps + steps') state] :=
  fun later _ sameLater => (join_hold_join_hold later nonneg nonneg' equal).trans
    (join_congr (.refl _) sameLater)

theorem normalize (same : SameOutput first second) :
    SameHistory (normalize first) (normalize second) :=
  same _ _ .nil

end SameOutput

end Event

/-! ## Ways of playing -/

/-- What the outputs show from a state on, and the state that is reached. -/
def Playing : Type := UpdateMap → List Event × UpdateMap

namespace Playing

def idle : Playing := fun state => ([], state)

/-- The outputs hold their state. -/
def hold (steps : ℤ) : Playing := fun state => ([.hold steps state], state)

/-- A record replaces the last record of its channel as a whole. -/
def write (updates : UpdateMap) : Playing := fun state => ([], state.merge updates)

def wait : Playing := fun state => ([.trigger], state)

def andThen (first second : Playing) : Playing := fun state =>
  ((first state).1 ++ (second (first state).2).1, (second (first state).2).2)

def times (body : Playing) : ℕ → Playing
  | 0 => idle
  | n + 1 => body.andThen (body.times n)

theorem andThen_assoc (p q r : Playing) : (p.andThen q).andThen r = p.andThen (q.andThen r) := by
  funext state
  simp [andThen]

@[simp] theorem idle_andThen (p : Playing) : idle.andThen p = p := by
  funext state
  simp [andThen, idle]

@[simp] theorem andThen_idle (p : Playing) : p.andThen idle = p := by
  funext state
  simp [andThen, idle]

@[simp] theorem write_empty : write .empty = idle := by
  funext state
  simp [write, idle]

theorem write_andThen_write (u v : UpdateMap) :
    (write u).andThen (write v) = write (u.merge v) := by
  funext state
  simp [andThen, write, UpdateMap.merge_assoc]

@[simp] theorem times_one (p : Playing) : p.times 1 = p := by
  rw [times, times, andThen_idle]

theorem times_add (p : Playing) (m n : ℕ) : p.times (m + n) = (p.times m).andThen (p.times n) := by
  induction m with
  | zero => simp [times]
  | succ m ih => rw [Nat.succ_add, times, ih, times, andThen_assoc]

theorem times_mul (p : Playing) (m n : ℕ) : p.times (m * n) = (p.times m).times n := by
  induction n with
  | zero => rfl
  | succ n ih => rw [Nat.mul_succ, Nat.add_comm, times_add, ih, times]

/-- Two ways of playing that show the same from equal states on, and reach equal states. -/
def Same (p q : Playing) : Prop :=
  ∀ state state' : UpdateMap, (state == state') = true →
    Event.SameOutput (p state).1 (q state').1 ∧ ((p state).2 == (q state').2) = true

namespace Same

variable {p q r : Playing}

theorem symm (same : p.Same q) : q.Same p := fun _ _ equal =>
  have ⟨output, final⟩ := same _ _ (BEq.symm equal)
  ⟨output.symm, BEq.symm final⟩

theorem trans (before : p.Same q) (after : q.Same r) : p.Same r := fun _ _ equal =>
  have ⟨output, final⟩ := before _ _ equal
  have ⟨output', final'⟩ := after _ _ BEq.rfl
  ⟨output.trans output', BEq.trans final final'⟩

instance : Trans Same Same Same := ⟨trans⟩

theorem idle : Playing.idle.Same Playing.idle := fun _ _ equal => ⟨.refl _, equal⟩

theorem hold (steps : ℤ) : (Playing.hold steps).Same (Playing.hold steps) :=
  fun _ _ equal => ⟨.hold equal, equal⟩

theorem wait : Playing.wait.Same Playing.wait := fun _ _ equal => ⟨.refl _, equal⟩

theorem write {u v : UpdateMap} (equal : (u == v) = true) :
    (Playing.write u).Same (Playing.write v) :=
  fun _ _ equalState => ⟨.refl _, UpdateMap.merge_congr equalState equal⟩

theorem andThen {p' q' : Playing} (first : p.Same q) (second : p'.Same q') :
    (p.andThen p').Same (q.andThen q') := fun _ _ equal =>
  have ⟨output, final⟩ := first _ _ equal
  have ⟨output', final'⟩ := second _ _ final
  ⟨output.append output', final'⟩

theorem times (same : p.Same q) (n : ℕ) : (p.times n).Same (q.times n) := by
  induction n with
  | zero => exact idle
  | succ n ih => exact same.andThen ih

/-- What plays the same has the same history, and leaves the outputs in the same state. -/
theorem history (same : p.Same q) (state : UpdateMap) :
    Event.SameHistory (Event.normalize (p state).1) (Event.normalize (q state).1) ∧
      ((p state).2 == (q state).2) = true :=
  have ⟨output, final⟩ := same state state BEq.rfl
  ⟨output.normalize, final⟩

end Same

theorem hold_zero : (hold 0).Same idle := fun _ _ equal => ⟨.hold_zero _, equal⟩

theorem hold_zero_andThen {p : Playing} (respects : p.Same p) : ((hold 0).andThen p).Same p := by
  have same := hold_zero.andThen respects
  rwa [idle_andThen] at same

theorem hold_andThen_hold {m n : ℤ} (nonneg : 0 ≤ m) (nonneg' : 0 ≤ n) :
    ((hold m).andThen (hold n)).Same (hold (m + n)) := fun _ _ equal =>
  ⟨(Event.SameOutput.hold_hold nonneg nonneg' BEq.rfl).trans (.hold equal), equal⟩

theorem hold_times {m : ℤ} (nonneg : 0 ≤ m) (n : ℕ) : ((hold m).times n).Same (hold (n * m)) := by
  induction n with
  | zero =>
    rw [Nat.cast_zero, zero_mul]
    exact hold_zero.symm
  | succ n ih =>
    rw [show ((n + 1 : ℕ) : ℤ) * m = m + n * m by push_cast; ring]
    exact ((Same.hold m).andThen ih).trans
      (hold_andThen_hold nonneg (mul_nonneg (Int.natCast_nonneg n) nonneg))

/-- Records that are written once more while they are held change nothing. -/
theorem write_hold_again {u v : UpdateMap} {m n : ℤ} (equal : (u == v) = true) (nonneg : 0 ≤ m)
    (nonneg' : 0 ≤ n) :
    (((write u).andThen (hold m)).andThen ((write v).andThen (hold n))).Same
      ((write (u.merge v)).andThen (hold (m + n))) := by
  intro state state' equalState
  have again := UpdateMap.beq_merge_of_beq equal
  have once : (state.merge u == state'.merge (u.merge v)) = true :=
    UpdateMap.merge_congr equalState again
  have twice : (state.merge u == (state.merge u).merge v) = true := by
    rw [UpdateMap.merge_assoc]
    exact UpdateMap.merge_congr BEq.rfl again
  exact ⟨(Event.SameOutput.hold_hold nonneg nonneg' twice).trans (.hold once),
    BEq.trans (BEq.symm twice) once⟩

end Playing

end PulseSequencer

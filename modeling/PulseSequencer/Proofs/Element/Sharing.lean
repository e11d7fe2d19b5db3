import Mathlib.Data.List.Pairwise
import PulseSequencer.Element.Sharing
import PulseSequencer.Proofs.Element.Equivalence

/-!
# Equality of elements in memory

Elements in memory are compared by the addresses of their children first. So an element is equal to
itself whatever its children are, as long as its own duration is a number. A subroutine keeps no
duration of its own and is always equal to itself.

Where one address holds one element, the comparison is symmetric and transitive, and it is the
comparison of the structure unless a duration in it is not a number.

Results:
1. `Object.equal_self_iff`: an object is equal to itself exactly if its own duration is a number or
   it is a subroutine.
2. `Object.equal_symm`, `Object.equal_trans`: equality is symmetric and transitive.
3. `Object.beq_of_equal`, `Object.equal_of_beq`: without overflow it is the equality of elements.
4. `Object.equal_eq_beq_of_apart`, `Object.equal_eq_beq`: so it is for objects that share no
   address, and for the parts of one in which each address occurs once.
-/

namespace PulseSequencer

/-! ## What equal elements share -/

namespace Element

theorem Alike.channels_eq {a b : Element} (alike : Alike a b) : a.channels = b.channels := by
  induction alike with
  | timestamp equal => exact UpdateMap.channels_congr (Bool.and_eq_true_iff.mp equal).2
  | trigger => rfl
  | emptySequence => rfl
  | emptyParallel => rfl
  | sequence _ _ ihFirst ihRest => exact congrArg₂ _ ihFirst ihRest
  | parallel _ _ ihFirst ihRest => exact congrArg₂ _ ihFirst ihRest
  | repeated _ _ ih => exact ih
  | subroutine _ _ ih => exact ih

theorem Alike.hasTrigger_eq {a b : Element} (alike : Alike a b) :
    a.hasTrigger = b.hasTrigger := by
  induction alike with
  | timestamp _ => rfl
  | trigger => rfl
  | emptySequence => rfl
  | emptyParallel => rfl
  | sequence _ _ ihFirst ihRest => exact congrArg₂ _ ihFirst ihRest
  | parallel _ _ ihFirst ihRest => exact congrArg₂ _ ihFirst ihRest
  | repeated _ _ ih => exact ih
  | subroutine _ _ ih => exact ih

end Element

namespace Object

open Element (beqAll)

/-! ## References -/

/-- Two references lead to the same address or to equal objects. -/
def same (a b : Object) : Bool := a.address == b.address || equal a b

theorem same_self (a : Object) : same a a = true := by
  rw [same, BEq.rfl, Bool.true_or]

theorem equalAll_cons (a b : Object) (as bs : List Object) :
    equalAll (a :: as) (b :: bs) = (same a b && equalAll as bs) := rfl

theorem equal_sequence (first second : Nat) (as bs : List Object) :
    equal (.sequence first as) (.sequence second bs)
      = (equalAll as bs && sameSummary (.sequence (elements as)) (.sequence (elements bs))) := rfl

theorem equal_parallel (first second : Nat) (as bs : List Object) :
    equal (.parallel first as) (.parallel second bs)
      = (equalAll as bs && sameSummary (.parallel (elements as)) (.parallel (elements bs))) := rfl

theorem equal_repeated (first second : Nat) (a b : Object) (m n : UInt32) :
    equal (.repeated first a m) (.repeated second b n)
      = (same a b && m == n
        && (Element.repeated a.element m).duration == (Element.repeated b.element n).duration) :=
  rfl

theorem equal_subroutine (first second : Nat) (a b : Object) :
    equal (.subroutine first a) (.subroutine second b) = same a b := rfl

/-! ## Reflexivity -/

theorem equalAll_self (objects : List Object) : equalAll objects objects = true := by
  induction objects with
  | nil => rfl
  | cons object rest ih => rw [equalAll_cons, same_self, ih]; rfl

theorem sameSummary_self_iff {e : Element} :
    sameSummary e e = true ↔ e.duration.value ≠ .nan := by
  simp only [sameSummary, BEq.rfl, Bool.and_true]
  exact Element.duration_beq_self_iff

/-- An object is equal to itself exactly if its own duration is a number or it is a subroutine. The
children are at the same addresses, so they are not looked at. -/
theorem equal_self_iff {a : Object} : a.equal a = true ↔
    (∃ body, a.element = .subroutine body) ∨ a.element.duration.value ≠ .nan := by
  cases a with
  | timestamp address t =>
    refine iff_of_true (Bool.and_eq_true_iff.mpr ⟨?_, BEq.rfl⟩) (.inr ?_)
    · exact Element.duration_beq_self t.finite
    · exact Duration.value_ne_nan t.finite
  | trigger address => exact iff_of_true rfl (.inr (Duration.value_ne_nan Duration.finite_zero))
  | sequence address children =>
    rw [equal_sequence, equalAll_self, Bool.true_and, sameSummary_self_iff]
    simp [element]
  | parallel address children =>
    rw [equal_parallel, equalAll_self, Bool.true_and, sameSummary_self_iff]
    simp [element]
  | repeated address body times =>
    rw [equal_repeated, same_self, BEq.rfl, Bool.true_and, Bool.true_and,
      Element.duration_beq_self_iff]
    simp [element]
  | subroutine address body =>
    rw [equal_subroutine]
    exact iff_of_true (same_self body) (.inl ⟨body.element, rfl⟩)

/-! ## Symmetry -/

theorem sameSummary_symm {a b : Element} (same : sameSummary a b = true) :
    sameSummary b a = true := by
  simp only [sameSummary, Bool.and_eq_true] at same ⊢
  exact ⟨⟨Duration.beq_symm same.1.1, BEq.symm same.1.2⟩, BEq.symm same.2⟩

theorem same_symm {a b : Object} (contents : a.equal b = true → b.equal a = true)
    (refer : same a b = true) : same b a = true := by
  rcases Bool.or_eq_true_iff.mp refer with address | equals
  · exact Bool.or_eq_true_iff.mpr (.inl (BEq.symm address))
  · exact Bool.or_eq_true_iff.mpr (.inr (contents equals))

mutual

theorem equal_symm {a b : Object} (equals : a.equal b = true) : b.equal a = true := by
  match a, b, equals with
  | .timestamp _ s, .timestamp _ t, equals => exact Timestamp.beq_symm equals
  | .trigger _, .trigger _, _ => rfl
  | .sequence _ as, .sequence _ bs, equals =>
    rw [equal_sequence, Bool.and_eq_true] at equals ⊢
    exact ⟨equalAll_symm equals.1, sameSummary_symm equals.2⟩
  | .parallel _ as, .parallel _ bs, equals =>
    rw [equal_parallel, Bool.and_eq_true] at equals ⊢
    exact ⟨equalAll_symm equals.1, sameSummary_symm equals.2⟩
  | .repeated _ a m, .repeated _ b n, equals =>
    rw [equal_repeated, Bool.and_eq_true, Bool.and_eq_true] at equals ⊢
    obtain ⟨⟨bodies, times⟩, durations⟩ := equals
    exact ⟨⟨same_symm equal_symm bodies, BEq.symm times⟩, Duration.beq_symm durations⟩
  | .subroutine _ a, .subroutine _ b, equals => exact same_symm equal_symm equals

theorem equalAll_symm {as bs : List Object} (equals : equalAll as bs = true) :
    equalAll bs as = true := by
  match as, bs, equals with
  | [], [], _ => rfl
  | a :: as, b :: bs, equals =>
    rw [equalAll_cons, Bool.and_eq_true] at equals ⊢
    exact ⟨same_symm equal_symm equals.1, equalAll_symm equals.2⟩

end

/-! ## Parts -/

def children : Object → List Object
  | .timestamp _ _ => []
  | .trigger _ => []
  | .sequence _ children => children
  | .parallel _ children => children
  | .repeated _ body _ => [body]
  | .subroutine _ body => [body]

mutual

/-- Everything in an object, without the object itself. -/
def inner : Object → List Object
  | .timestamp _ _ => []
  | .trigger _ => []
  | .sequence _ children => innerAll children
  | .parallel _ children => innerAll children
  | .repeated _ body _ => body :: body.inner
  | .subroutine _ body => body :: body.inner

def innerAll : List Object → List Object
  | [] => []
  | object :: rest => object :: (object.inner ++ innerAll rest)

end

theorem mem_innerAll {part : Object} {objects : List Object} :
    part ∈ innerAll objects ↔ ∃ object ∈ objects, part = object ∨ part ∈ object.inner := by
  induction objects with
  | nil => simp [innerAll]
  | cons object rest ih =>
    rw [innerAll, List.mem_cons, List.mem_append, ih, List.exists_mem_cons_iff, or_assoc]

theorem inner_of_child {object child : Object} (isChild : child ∈ object.children) :
    child ∈ object.inner ∧ child.inner ⊆ object.inner := by
  cases object with
  | timestamp | trigger => cases isChild
  | sequence | parallel =>
    exact ⟨mem_innerAll.mpr ⟨child, isChild, .inl rfl⟩, fun part inside =>
      mem_innerAll.mpr ⟨child, isChild, .inr inside⟩⟩
  | repeated | subroutine =>
    obtain rfl := List.mem_singleton.mp isChild
    exact ⟨List.mem_cons_self, List.subset_cons_self _ _⟩

/-- A memory that holds everything in an object at its address. -/
def StoredIn (memory : Nat → Object) (object : Object) : Prop :=
  ∀ part ∈ object.inner, memory part.address = part

section

variable {memory : Nat → Object}

/-- A child in memory, with everything in it. -/
def Held (memory : Nat → Object) (child : Object) : Prop :=
  memory child.address = child ∧ child.StoredIn memory

theorem held_of_children {object : Object} (stored : object.StoredIn memory) :
    ∀ child ∈ object.children, Held memory child := by
  intro child isChild
  obtain ⟨inside, within⟩ := inner_of_child isChild
  exact ⟨stored child inside, fun part inChild => stored part (within inChild)⟩

/-- One address holds one object. -/
theorem Held.eq {a b : Object} (heldA : Held memory a) (heldB : Held memory b)
    (address : (a.address == b.address) = true) : a = b := by
  rw [← heldA.1, ← heldB.1, eq_of_beq address]

/-! ## Transitivity -/

theorem same_trans {a b c : Object} (heldA : Held memory a) (heldB : Held memory b)
    (heldC : Held memory c)
    (contents : a.equal b = true → b.equal c = true → a.equal c = true)
    (first : same a b = true) (second : same b c = true) : same a c = true := by
  rcases Bool.or_eq_true_iff.mp first with address | equals
  · rw [heldA.eq heldB address]
    exact second
  · rcases Bool.or_eq_true_iff.mp second with address | equals'
    · rw [← heldB.eq heldC address]
      exact first
    · exact Bool.or_eq_true_iff.mpr (.inr (contents equals equals'))

theorem sameSummary_trans {a b c : Element} (first : sameSummary a b = true)
    (second : sameSummary b c = true) : sameSummary a c = true := by
  simp only [sameSummary, Bool.and_eq_true] at first second ⊢
  exact ⟨⟨Duration.beq_trans first.1.1 second.1.1, BEq.trans first.1.2 second.1.2⟩,
    BEq.trans first.2 second.2⟩

mutual

theorem equal_trans {a b c : Object} (storedA : a.StoredIn memory) (storedB : b.StoredIn memory)
    (storedC : c.StoredIn memory) (first : a.equal b = true) (second : b.equal c = true) :
    a.equal c = true := by
  match a, b, c, first, second with
  | .timestamp _ s, .timestamp _ t, .timestamp _ u, first, second =>
    exact Timestamp.beq_trans first second
  | .trigger _, .trigger _, .trigger _, _, _ => rfl
  | .sequence _ as, .sequence _ bs, .sequence _ cs, first, second =>
    rw [equal_sequence, Bool.and_eq_true] at first second ⊢
    exact ⟨equalAll_trans (held_of_children storedA) (held_of_children storedB)
      (held_of_children storedC) first.1 second.1, sameSummary_trans first.2 second.2⟩
  | .parallel _ as, .parallel _ bs, .parallel _ cs, first, second =>
    rw [equal_parallel, Bool.and_eq_true] at first second ⊢
    exact ⟨equalAll_trans (held_of_children storedA) (held_of_children storedB)
      (held_of_children storedC) first.1 second.1, sameSummary_trans first.2 second.2⟩
  | .repeated _ a _, .repeated _ b _, .repeated _ c _, first, second =>
    rw [equal_repeated, Bool.and_eq_true, Bool.and_eq_true] at first second ⊢
    have heldA := held_of_children storedA a List.mem_cons_self
    have heldB := held_of_children storedB b List.mem_cons_self
    have heldC := held_of_children storedC c List.mem_cons_self
    exact ⟨⟨same_trans heldA heldB heldC (equal_trans heldA.2 heldB.2 heldC.2) first.1.1
      second.1.1, BEq.trans first.1.2 second.1.2⟩, Duration.beq_trans first.2 second.2⟩
  | .subroutine _ a, .subroutine _ b, .subroutine _ c, first, second =>
    have heldA := held_of_children storedA a List.mem_cons_self
    have heldB := held_of_children storedB b List.mem_cons_self
    have heldC := held_of_children storedC c List.mem_cons_self
    exact same_trans heldA heldB heldC (equal_trans heldA.2 heldB.2 heldC.2) first second

theorem equalAll_trans {as bs cs : List Object} (heldA : ∀ a ∈ as, Held memory a)
    (heldB : ∀ b ∈ bs, Held memory b) (heldC : ∀ c ∈ cs, Held memory c)
    (first : equalAll as bs = true) (second : equalAll bs cs = true) : equalAll as cs = true := by
  match as, bs, cs, first, second with
  | [], [], [], _, _ => rfl
  | a :: as, b :: bs, c :: cs, first, second =>
    obtain ⟨heldFirstA, heldRestA⟩ := List.forall_mem_cons.mp heldA
    obtain ⟨heldFirstB, heldRestB⟩ := List.forall_mem_cons.mp heldB
    obtain ⟨heldFirstC, heldRestC⟩ := List.forall_mem_cons.mp heldC
    rw [equalAll_cons, Bool.and_eq_true] at first second ⊢
    exact ⟨same_trans heldFirstA heldFirstB heldFirstC
      (equal_trans heldFirstA.2 heldFirstB.2 heldFirstC.2) first.1 second.1,
      equalAll_trans heldRestA heldRestB heldRestC first.2 second.2⟩

end

/-! ## Structure -/

theorem sameSummary_of_beq {a b : Element} (equals : (a == b) = true)
    (durations : (a.duration == b.duration) = true) : sameSummary a b = true := by
  have alike := Element.alike_of_beq equals
  simp only [sameSummary, Bool.and_eq_true]
  exact ⟨⟨durations, beq_of_eq alike.channels_eq⟩, beq_of_eq alike.hasTrigger_eq⟩

mutual

/-- Objects with equal structure are equal, wherever they are stored. -/
theorem equal_of_beq {a b : Object} (equals : (a.element == b.element) = true) :
    a.equal b = true := by
  match a, b, equals with
  | .timestamp _ s, .timestamp _ t, equals =>
    rw [element, element, Element.beq_timestamp] at equals
    exact equals
  | .trigger _, .trigger _, _ => rfl
  | .sequence _ as, .sequence _ bs, equals =>
    have parts := equals
    rw [element, element, Element.beq_sequence, Bool.and_eq_true] at parts
    rw [equal_sequence, Bool.and_eq_true]
    exact ⟨equalAll_of_beqAll parts.1, sameSummary_of_beq equals parts.2⟩
  | .parallel _ as, .parallel _ bs, equals =>
    have parts := equals
    rw [element, element, Element.beq_parallel, Bool.and_eq_true] at parts
    rw [equal_parallel, Bool.and_eq_true]
    exact ⟨equalAll_of_beqAll parts.1, sameSummary_of_beq equals parts.2⟩
  | .repeated _ a m, .repeated _ b n, equals =>
    rw [element, element, Element.beq_repeated, Bool.and_eq_true, Bool.and_eq_true] at equals
    rw [equal_repeated, Bool.and_eq_true, Bool.and_eq_true]
    obtain ⟨⟨times, bodies⟩, durations⟩ := equals
    exact ⟨⟨Bool.or_eq_true_iff.mpr (.inr (equal_of_beq bodies)), times⟩, durations⟩
  | .subroutine _ a, .subroutine _ b, equals =>
    rw [element, element, Element.beq_subroutine] at equals
    exact Bool.or_eq_true_iff.mpr (.inr (equal_of_beq equals))

theorem equalAll_of_beqAll {as bs : List Object}
    (equals : beqAll (elements as) (elements bs) = true) : equalAll as bs = true := by
  match as, bs, equals with
  | [], [], _ => rfl
  | a :: as, b :: bs, equals =>
    rw [elements, elements, Element.beqAll_cons, Bool.and_eq_true] at equals
    rw [equalAll_cons, Bool.and_eq_true]
    exact ⟨Bool.or_eq_true_iff.mpr (.inr (equal_of_beq equals.1)), equalAll_of_beqAll equals.2⟩

end

/-- Two references that are not taken for equal by their addresses alone. -/
def Settled (a b : Object) : Prop :=
  a.address = b.address → (a.element == b.element) = true

theorem beq_of_same {a b : Object} (settled : Settled a b)
    (contents : a.equal b = true → (a.element == b.element) = true) (refer : same a b = true) :
    (a.element == b.element) = true := by
  rcases Bool.or_eq_true_iff.mp refer with address | equals
  · exact settled (eq_of_beq address)
  · exact contents equals

end

/-- A relation that objects pass on to their children, none of which are taken for equal by their
addresses alone. -/
def Descends (related : Object → Object → Prop) : Prop :=
  ∀ {a b : Object}, related a b →
    ∀ pair ∈ a.children.zip b.children, related pair.1 pair.2 ∧ Settled pair.1 pair.2

mutual

/-- Equal objects have equal structure if no addresses are taken for equal, at any depth. -/
theorem beq_of_descends {related : Object → Object → Prop} (descends : Descends related)
    {a b : Object} (holds : related a b) (equals : a.equal b = true) :
    (a.element == b.element) = true := by
  match a, b, holds, equals with
  | .timestamp _ s, .timestamp _ t, _, equals =>
    rw [element, element, Element.beq_timestamp]
    exact equals
  | .trigger _, .trigger _, _, _ => rfl
  | .sequence _ as, .sequence _ bs, holds, equals =>
    rw [equal_sequence, Bool.and_eq_true, sameSummary, Bool.and_eq_true, Bool.and_eq_true] at equals
    rw [element, element, Element.beq_sequence, Bool.and_eq_true]
    exact ⟨beqAll_of_descends descends (descends holds) equals.1, equals.2.1.1⟩
  | .parallel _ as, .parallel _ bs, holds, equals =>
    rw [equal_parallel, Bool.and_eq_true, sameSummary, Bool.and_eq_true, Bool.and_eq_true] at equals
    rw [element, element, Element.beq_parallel, Bool.and_eq_true]
    exact ⟨beqAll_of_descends descends (descends holds) equals.1, equals.2.1.1⟩
  | .repeated _ a m, .repeated _ b n, holds, equals =>
    rw [equal_repeated, Bool.and_eq_true, Bool.and_eq_true] at equals
    rw [element, element, Element.beq_repeated, Bool.and_eq_true, Bool.and_eq_true]
    obtain ⟨⟨bodies, times⟩, durations⟩ := equals
    obtain ⟨holdsBody, settled⟩ := descends holds (a, b) (List.mem_singleton_self _)
    exact ⟨⟨times, beq_of_same settled (beq_of_descends descends holdsBody) bodies⟩, durations⟩
  | .subroutine _ a, .subroutine _ b, holds, equals =>
    rw [equal_subroutine] at equals
    rw [element, element, Element.beq_subroutine]
    obtain ⟨holdsBody, settled⟩ := descends holds (a, b) (List.mem_singleton_self _)
    exact beq_of_same settled (beq_of_descends descends holdsBody) equals

theorem beqAll_of_descends {related : Object → Object → Prop} (descends : Descends related)
    {as bs : List Object}
    (holds : ∀ pair ∈ as.zip bs, related pair.1 pair.2 ∧ Settled pair.1 pair.2)
    (equals : equalAll as bs = true) : beqAll (elements as) (elements bs) = true := by
  match as, bs, holds, equals with
  | [], [], _, _ => rfl
  | a :: as, b :: bs, holds, equals =>
    rw [equalAll_cons, Bool.and_eq_true] at equals
    rw [elements, elements, Element.beqAll_cons, Bool.and_eq_true]
    obtain ⟨⟨holdsFirst, settled⟩, holdsRest⟩ := List.forall_mem_cons.mp holds
    exact ⟨beq_of_same settled (beq_of_descends descends holdsFirst) equals.1,
      beqAll_of_descends descends holdsRest equals.2⟩

end

theorem mem_elements {e : Element} {objects : List Object} :
    e ∈ elements objects ↔ ∃ object ∈ objects, object.element = e := by
  induction objects with
  | nil => simp [elements]
  | cons object rest ih => rw [elements, List.mem_cons, ih, List.exists_mem_cons_iff, eq_comm]

theorem subelements_of_child {object child : Object} (isChild : child ∈ object.children) :
    child.element.subelements ⊆ object.element.subelements := by
  cases object with
  | timestamp | trigger => cases isChild
  | sequence | parallel =>
    intro part inside
    refine List.mem_cons_of_mem _ (Element.mem_subelementsAll.mpr ⟨child.element, ?_, inside⟩)
    exact mem_elements.mpr ⟨child, isChild, rfl⟩
  | repeated | subroutine =>
    obtain rfl := List.mem_singleton.mp isChild
    exact List.subset_cons_self _ _

/-- In one memory, equality is that of the structure unless a duration in it is not a number. -/
theorem beq_of_equal {memory : Nat → Object} {a b : Object} (storedA : a.StoredIn memory)
    (storedB : b.StoredIn memory)
    (numbers : ∀ part ∈ a.element.subelements, part.duration.value ≠ .nan)
    (equals : a.equal b = true) : (a.element == b.element) = true := by
  refine @beq_of_descends (fun a b => a.StoredIn memory ∧ b.StoredIn memory ∧
    ∀ part ∈ a.element.subelements, part.duration.value ≠ .nan) ?_ a b ⟨storedA, storedB, numbers⟩
    equals
  rintro a b ⟨storedA, storedB, numbers⟩ ⟨first, second⟩ together
  obtain ⟨isFirst, isSecond⟩ := List.of_mem_zip together
  have heldFirst := held_of_children storedA first isFirst
  have heldSecond := held_of_children storedB second isSecond
  have numbersFirst : ∀ part ∈ first.element.subelements, part.duration.value ≠ .nan :=
    fun part inside => numbers part (subelements_of_child isFirst inside)
  refine ⟨⟨heldFirst.2, heldSecond.2, numbersFirst⟩, fun address => ?_⟩
  obtain rfl : first = second := heldFirst.eq heldSecond (beq_of_eq address)
  exact Element.beq_self_iff.mpr numbersFirst

/-! ## Objects at different addresses -/

/-- Objects that share nothing are compared by their structure. -/
theorem equal_eq_beq_of_apart {a b : Object}
    (apart : ∀ x ∈ a.inner, ∀ y ∈ b.inner, x.address ≠ y.address) :
    a.equal b = (a.element == b.element) := by
  refine Bool.eq_iff_iff.mpr ⟨?_, equal_of_beq⟩
  refine @beq_of_descends (fun a b => ∀ x ∈ a.inner, ∀ y ∈ b.inner, x.address ≠ y.address) ?_ a b
    apart
  rintro a b apart ⟨first, second⟩ together
  obtain ⟨isFirst, isSecond⟩ := List.of_mem_zip together
  obtain ⟨inFirst, withinFirst⟩ := inner_of_child isFirst
  obtain ⟨inSecond, withinSecond⟩ := inner_of_child isSecond
  exact ⟨fun x inX y inY => apart x (withinFirst inX) y (withinSecond inY),
    fun same => absurd same (apart first inFirst second inSecond)⟩

mutual

/-- Everything in an object is the child of one part of it. -/
theorem inner_perm (object : Object) :
    object.inner.Perm ((object :: object.inner).flatMap children) := by
  match object with
  | .timestamp _ _ => exact .refl _
  | .trigger _ => exact .refl _
  | .sequence _ objects => exact innerAll_perm objects
  | .parallel _ objects => exact innerAll_perm objects
  | .repeated _ body _ => exact (inner_perm body).cons body
  | .subroutine _ body => exact (inner_perm body).cons body

theorem innerAll_perm (objects : List Object) :
    (innerAll objects).Perm (objects ++ (innerAll objects).flatMap children) := by
  match objects with
  | [] => exact .refl _
  | object :: rest =>
    rw [innerAll, ← List.cons_append, List.flatMap_append]
    refine .cons object ?_
    exact ((inner_perm object).append (innerAll_perm rest)).trans
      (List.perm_append_comm_assoc ..)

end

theorem mem_inner_of_child {object part child : Object} (inside : part ∈ object :: object.inner)
    (isChild : child ∈ part.children) : child ∈ object.inner :=
  (inner_perm object).mem_iff.mpr (List.mem_flatMap.mpr ⟨part, inside, isChild⟩)

/-- Different parts have different children. -/
theorem address_ne_of_children {object a b x y : Object}
    (distinct : ((object :: object.inner).map address).Nodup)
    (insideA : a ∈ object :: object.inner) (insideB : b ∈ object :: object.inner) (other : a ≠ b)
    (childX : x ∈ a.children) (childY : y ∈ b.children) : x.address ≠ y.address := by
  have children := ((inner_perm object).map address).nodup_iff.mp (List.nodup_cons.mp distinct).2
  rw [List.map_flatMap, List.nodup_flatMap] at children
  have : Std.Symm (Function.onFun List.Disjoint fun part : Object => part.children.map address) :=
    ⟨fun _ _ disjoint _ inSecond inFirst => disjoint inFirst inSecond⟩
  have apart := children.2.forall insideA insideB other
  intro same
  exact apart (List.mem_map_of_mem childX) (same ▸ List.mem_map_of_mem childY)

/-- Two parts of an object that shares nothing are compared by their structure. -/
theorem equal_eq_beq {object a b : Object}
    (distinct : ((object :: object.inner).map address).Nodup)
    (insideA : a ∈ object :: object.inner) (insideB : b ∈ object :: object.inner)
    (other : a.address ≠ b.address) : a.equal b = (a.element == b.element) := by
  refine Bool.eq_iff_iff.mpr ⟨?_, equal_of_beq⟩
  refine @beq_of_descends (fun a b => a ∈ object :: object.inner ∧ b ∈ object :: object.inner ∧
    a.address ≠ b.address) ?_ a b ⟨insideA, insideB, other⟩
  rintro a b ⟨insideA, insideB, other⟩ ⟨x, y⟩ together
  obtain ⟨childX, childY⟩ := List.of_mem_zip together
  have different : x.address ≠ y.address :=
    address_ne_of_children distinct insideA insideB (fun same => other (same ▸ rfl)) childX childY
  exact ⟨⟨List.mem_cons_of_mem _ (mem_inner_of_child insideA childX),
    List.mem_cons_of_mem _ (mem_inner_of_child insideB childY), different⟩,
    fun same => absurd same different⟩

end Object

end PulseSequencer

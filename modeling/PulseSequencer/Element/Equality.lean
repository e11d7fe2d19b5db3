import PulseSequencer.Element.Basic

/-!
# Equality of elements

Two elements are equal if they have the same structure and, at every element of it, the same
rounded duration. Equal children do not settle the duration of their parent, because durations are
equal when their rounded values are, so the durations of composed elements are compared too.

This is the equality of elements that share nothing in memory. References to one address are equal
without a look at what they refer to, which makes a difference where a duration is not a number:
`Object.equal` in the module on elements in memory compares them so.

The comparison carries the durations upwards and so computes each of them once. The lemmas `beq_...`
give it in terms of `duration`.
-/

namespace PulseSequencer.Element

/-- Both durations, if their values are equal. -/
def ifSameValue (d e : Duration) : Option (Duration × Duration) :=
  if d == e then some (d, e) else none

mutual

/-- The durations of two equal elements. -/
def matchDurations : Element → Element → Option (Duration × Duration)
  | .timestamp s, .timestamp t => if s == t then some (s.duration, t.duration) else none
  | .trigger, .trigger => some (.zero, .zero)
  | .sequence as, .sequence bs => do
    let (ds, es) ← matchAll as bs
    ifSameValue (total ds) (total es)
  | .parallel as, .parallel bs => do
    let (ds, es) ← matchAll as bs
    ifSameValue (longest ds) (longest es)
  | .repeated a m, .repeated b n =>
    if m = n then do
      let (d, e) ← matchDurations a b
      ifSameValue (d.scale m) (e.scale n)
    else none
  | .subroutine a, .subroutine b => matchDurations a b
  | _, _ => none

def matchAll : List Element → List Element → Option (List Duration × List Duration)
  | [], [] => some ([], [])
  | a :: as, b :: bs => do
    let (d, e) ← matchDurations a b
    let (ds, es) ← matchAll as bs
    return (d :: ds, e :: es)
  | _, _ => none

end

instance : BEq Element := ⟨fun a b => (matchDurations a b).isSome⟩

/-- Lists of elements that are equal one by one. -/
def beqAll (as bs : List Element) : Bool := (matchAll as bs).isSome

/-! ## Equality through `duration` -/

theorem ifSameValue_eq_some {d e : Duration} {pair : Duration × Duration} :
    ifSameValue d e = some pair ↔ (d == e) = true ∧ pair = (d, e) := by
  unfold ifSameValue
  split
  · simp_all only [Option.some.injEq, true_and]
    exact eq_comm
  · simp_all

theorem isSome_ifSameValue (d e : Duration) : (ifSameValue d e).isSome = (d == e) := by
  unfold ifSameValue
  split <;> simp_all

mutual

theorem durations_of_matchDurations {a b : Element} {pair : Duration × Duration}
    (equal : matchDurations a b = some pair) : pair = (a.duration, b.duration) := by
  match a, b, equal with
  | .timestamp s, .timestamp t, equal =>
    simp only [matchDurations, Option.ite_none_right_eq_some, Option.some.injEq] at equal
    exact equal.2.symm
  | .trigger, .trigger, equal =>
    simp only [matchDurations, Option.some.injEq] at equal
    exact equal.symm
  | .sequence as, .sequence bs, equal =>
    simp only [matchDurations, Option.bind_eq_bind, Option.bind_eq_some_iff] at equal
    obtain ⟨lists, matched, same⟩ := equal
    rw [durations_of_matchAll matched] at same
    exact (ifSameValue_eq_some.1 same).2
  | .parallel as, .parallel bs, equal =>
    simp only [matchDurations, Option.bind_eq_bind, Option.bind_eq_some_iff] at equal
    obtain ⟨lists, matched, same⟩ := equal
    rw [durations_of_matchAll matched] at same
    exact (ifSameValue_eq_some.1 same).2
  | .repeated a m, .repeated b n, equal =>
    simp only [matchDurations, Option.bind_eq_bind, Option.bind_eq_some_iff,
      Option.ite_none_right_eq_some] at equal
    obtain ⟨_, inner, matched, same⟩ := equal
    rw [durations_of_matchDurations matched] at same
    exact (ifSameValue_eq_some.1 same).2
  | .subroutine a, .subroutine b, equal =>
    exact durations_of_matchDurations (a := a) (b := b) equal

theorem durations_of_matchAll {as bs : List Element} {pair : List Duration × List Duration}
    (equal : matchAll as bs = some pair) : pair = (durations as, durations bs) := by
  match as, bs, equal with
  | [], [], equal =>
    simp only [matchAll, Option.some.injEq] at equal
    exact equal.symm
  | a :: as, b :: bs, equal =>
    simp only [matchAll, Option.bind_eq_bind, Option.bind_eq_some_iff, Option.pure_def,
      Option.some.injEq] at equal
    obtain ⟨heads, matchedHeads, tails, matchedTails, rfl⟩ := equal
    rw [durations_of_matchDurations matchedHeads, durations_of_matchAll matchedTails]
    rfl

end

theorem beq_timestamp (s t : Timestamp) : (Element.timestamp s == .timestamp t) = (s == t) := by
  simp only [BEq.beq, matchDurations]
  split <;> simp_all

theorem beq_sequence (as bs : List Element) :
    (Element.sequence as == .sequence bs)
      = (beqAll as bs && duration (.sequence as) == duration (.sequence bs)) := by
  simp only [beqAll, duration]
  show (matchDurations _ _).isSome = _
  simp only [matchDurations, Option.bind_eq_bind]
  cases matched : matchAll as bs with
  | none => rfl
  | some lists =>
    rw [durations_of_matchAll matched]
    exact isSome_ifSameValue _ _

theorem beq_parallel (as bs : List Element) :
    (Element.parallel as == .parallel bs)
      = (beqAll as bs && duration (.parallel as) == duration (.parallel bs)) := by
  simp only [beqAll, duration]
  show (matchDurations _ _).isSome = _
  simp only [matchDurations, Option.bind_eq_bind]
  cases matched : matchAll as bs with
  | none => rfl
  | some lists =>
    rw [durations_of_matchAll matched]
    exact isSome_ifSameValue _ _

theorem beq_repeated (a b : Element) (m n : UInt32) :
    (Element.repeated a m == .repeated b n)
      = (m == n && a == b && duration (.repeated a m) == duration (.repeated b n)) := by
  simp only [duration]
  show (matchDurations _ _).isSome = (m == n && (matchDurations a b).isSome && _)
  simp only [matchDurations, Option.bind_eq_bind]
  by_cases same : m = n
  · cases matched : matchDurations a b with
    | none => simp [same]
    | some pair =>
      rw [durations_of_matchDurations matched]
      simp [same, isSome_ifSameValue]
  · simp [same]

theorem beq_subroutine (a b : Element) : (Element.subroutine a == .subroutine b) = (a == b) := rfl

theorem beqAll_cons (a b : Element) (as bs : List Element) :
    beqAll (a :: as) (b :: bs) = (a == b && beqAll as bs) := by
  show (matchAll _ _).isSome = ((matchDurations a b).isSome && (matchAll as bs).isSome)
  cases heads : matchDurations a b <;> cases tails : matchAll as bs <;>
    simp [matchAll, heads, tails]

end PulseSequencer.Element

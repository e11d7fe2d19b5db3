import PulseSequencer.Element.Equality
import PulseSequencer.Proofs.Update

/-!
# Equal elements

Equality of elements compares the structure and, at every element of it, the rounded durations.
What a program is made of depends on the structure alone, and `Alike` is that structure as a
relation: one induction on it carries a property from an element to an equal one.

Results:
1. `alike_of_beq`: equal elements have the same structure.
2. `beq_trans`: equality is transitive. It is not reflexive, because a duration that is not a number
   is not equal to itself.
-/

namespace PulseSequencer

theorem Duration.beq_trans {d e f : Duration} (first : (d == e) = true)
    (second : (e == f) = true) : (d == f) = true := by
  obtain ⟨notNan, same⟩ := Binary64.numEq_iff.mp first
  obtain ⟨_, same'⟩ := Binary64.numEq_iff.mp second
  exact Binary64.numEq_iff.mpr ⟨notNan, same.trans same'⟩

theorem Timestamp.beq_trans {s t u : Timestamp} (first : (s == t) = true)
    (second : (t == u) = true) : (s == u) = true := by
  obtain ⟨durations, updates⟩ := Bool.and_eq_true_iff.mp first
  obtain ⟨durations', updates'⟩ := Bool.and_eq_true_iff.mp second
  exact Bool.and_eq_true_iff.mpr
    ⟨Duration.beq_trans durations durations', BEq.trans updates updates'⟩

namespace Element

/-! ## Structure -/

/-- Elements of the same structure, with equal timestamps and with equal bodies of subroutines. -/
inductive Alike : Element → Element → Prop
  | timestamp {s t : Timestamp} : (s == t) = true → Alike (.timestamp s) (.timestamp t)
  | trigger : Alike .trigger .trigger
  | emptySequence : Alike (.sequence []) (.sequence [])
  | sequence {a b : Element} {as bs : List Element} :
      Alike a b → Alike (.sequence as) (.sequence bs) →
      Alike (.sequence (a :: as)) (.sequence (b :: bs))
  | emptyParallel : Alike (.parallel []) (.parallel [])
  | parallel {a b : Element} {as bs : List Element} :
      Alike a b → Alike (.parallel as) (.parallel bs) →
      Alike (.parallel (a :: as)) (.parallel (b :: bs))
  | repeated {a b : Element} (times : UInt32) :
      Alike a b → Alike (.repeated a times) (.repeated b times)
  | subroutine {a b : Element} :
      (a == b) = true → Alike a b → Alike (.subroutine a) (.subroutine b)

theorem beq_of_matchDurations {a b : Element} {pair : Duration × Duration}
    (equal : matchDurations a b = some pair) : (a == b) = true :=
  Option.isSome_iff_exists.mpr ⟨pair, equal⟩

mutual

theorem alike_of_matchDurations {a b : Element} {pair : Duration × Duration}
    (equal : matchDurations a b = some pair) : Alike a b := by
  match a, b, equal with
  | .timestamp s, .timestamp t, equal =>
    simp only [matchDurations, Option.ite_none_right_eq_some] at equal
    exact .timestamp equal.1
  | .trigger, .trigger, _ => exact .trigger
  | .sequence as, .sequence bs, equal =>
    simp only [matchDurations, Option.bind_eq_bind, Option.bind_eq_some_iff] at equal
    obtain ⟨lists, matched, _⟩ := equal
    exact (alike_of_matchAll matched).1
  | .parallel as, .parallel bs, equal =>
    simp only [matchDurations, Option.bind_eq_bind, Option.bind_eq_some_iff] at equal
    obtain ⟨lists, matched, _⟩ := equal
    exact (alike_of_matchAll matched).2
  | .repeated a m, .repeated b n, equal =>
    simp only [matchDurations, Option.bind_eq_bind, Option.bind_eq_some_iff,
      Option.ite_none_right_eq_some] at equal
    obtain ⟨rfl, inner, matched, _⟩ := equal
    exact .repeated m (alike_of_matchDurations matched)
  | .subroutine a, .subroutine b, equal =>
    rw [matchDurations] at equal
    exact .subroutine (beq_of_matchDurations equal) (alike_of_matchDurations equal)

theorem alike_of_matchAll {as bs : List Element} {pair : List Duration × List Duration}
    (equal : matchAll as bs = some pair) :
    Alike (.sequence as) (.sequence bs) ∧ Alike (.parallel as) (.parallel bs) := by
  match as, bs, equal with
  | [], [], _ => exact ⟨.emptySequence, .emptyParallel⟩
  | a :: as, b :: bs, equal =>
    simp only [matchAll, Option.bind_eq_bind, Option.bind_eq_some_iff] at equal
    obtain ⟨heads, matchedHeads, tails, matchedTails, _⟩ := equal
    have head := alike_of_matchDurations matchedHeads
    obtain ⟨sequence, parallel⟩ := alike_of_matchAll matchedTails
    exact ⟨.sequence head sequence, .parallel head parallel⟩

end

theorem alike_of_beq {a b : Element} (equal : (a == b) = true) : Alike a b := by
  obtain ⟨pair, matched⟩ := Option.isSome_iff_exists.mp equal
  exact alike_of_matchDurations matched

/-! ## Transitivity -/

mutual

theorem beq_trans {a b c : Element} (first : (a == b) = true) (second : (b == c) = true) :
    (a == c) = true := by
  match a, b, c, first, second with
  | .timestamp s, .timestamp t, .timestamp u, first, second =>
    rw [beq_timestamp] at first second ⊢
    exact Timestamp.beq_trans first second
  | .trigger, .trigger, .trigger, _, _ => rfl
  | .sequence as, .sequence bs, .sequence cs, first, second =>
    rw [beq_sequence, Bool.and_eq_true] at first second ⊢
    exact ⟨beqAll_trans first.1 second.1, Duration.beq_trans first.2 second.2⟩
  | .parallel as, .parallel bs, .parallel cs, first, second =>
    rw [beq_parallel, Bool.and_eq_true] at first second ⊢
    exact ⟨beqAll_trans first.1 second.1, Duration.beq_trans first.2 second.2⟩
  | .repeated a l, .repeated b m, .repeated c n, first, second =>
    rw [beq_repeated, Bool.and_eq_true, Bool.and_eq_true] at first second ⊢
    obtain ⟨⟨times, bodies⟩, durations⟩ := first
    obtain ⟨⟨times', bodies'⟩, durations'⟩ := second
    exact ⟨⟨BEq.trans times times', beq_trans bodies bodies'⟩,
      Duration.beq_trans durations durations'⟩
  | .subroutine a, .subroutine b, .subroutine c, first, second =>
    rw [beq_subroutine] at first second ⊢
    exact beq_trans first second

theorem beqAll_trans {as bs cs : List Element} (first : beqAll as bs = true)
    (second : beqAll bs cs = true) : beqAll as cs = true := by
  match as, bs, cs, first, second with
  | [], [], [], _, _ => rfl
  | a :: as, b :: bs, c :: cs, first, second =>
    rw [beqAll_cons, Bool.and_eq_true] at first second ⊢
    exact ⟨beq_trans first.1 second.1, beqAll_trans first.2 second.2⟩

end

end Element

end PulseSequencer

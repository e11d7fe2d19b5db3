import PulseSequencer.Proofs.Binary64.Rational
import PulseSequencer.Proofs.Duration.Overflow

/-!
# Expressions of durations

A duration is built from numbers of seconds by sums and products with counts. Read as rational
numbers, nothing is lost on the way, and the value that is read at the end is rounded once. So it
cannot depend on how the duration was built.

The sum of the magnitudes of all terms has to stay below `2 ^ 1022` seconds. The largest number is
about four times as large, which leaves room for the carries of a push.

Results:
1. `Bounded.holds`: the partial sums of a bounded expression are finite and add up to it exactly.
2. `Bounded.value_nearestEven`: its value is the exact sum, rounded to nearest, a tie to even.
3. `exact_value`: so equal sums have equal values, however they are grouped and scaled.
-/

namespace PulseSequencer.Duration

open Binary64

/-! ## Expressions -/

/-- How a duration is built. -/
inductive Expression where
  | zero
  | seconds (x : Binary64)
  | add (first second : Expression)
  | scaled (inner : Expression) (times : UInt32)

namespace Expression

/-- The duration as it is computed. -/
def duration : Expression → Duration
  | .zero => .zero
  | .seconds x => .ofSeconds x
  | .add first second => first.duration + second.duration
  | .scaled inner times => inner.duration.scale times

/-- The duration in exact arithmetic, in seconds. -/
def exactSeconds : Expression → ℚ
  | .zero => 0
  | .seconds x => x.rational
  | .add first second => first.exactSeconds + second.exactSeconds
  | .scaled inner times => inner.exactSeconds * times.toNat

/-- The sum of the magnitudes of all terms. -/
def magnitude : Expression → ℚ
  | .zero => 0
  | .seconds x => |x.rational|
  | .add first second => first.magnitude + second.magnitude
  | .scaled inner times => inner.magnitude * times.toNat

/-- All terms are finite, and the sum of their magnitudes stays below `2 ^ 1022` seconds. -/
def Bounded : Expression → Prop
  | .zero => True
  | .seconds x => x.isFinite = true ∧ |x.rational| < 2 ^ 1022
  | .add first second =>
    first.Bounded ∧ second.Bounded ∧ first.magnitude + second.magnitude < 2 ^ 1022
  | .scaled inner times => inner.Bounded ∧ inner.magnitude * times.toNat < 2 ^ 1022

/-- An expression added up `count` times. -/
def repeated (e : Expression) : ℕ → Expression
  | 0 => .zero
  | count + 1 => .add (e.repeated count) e

theorem magnitude_nonneg (e : Expression) : 0 ≤ e.magnitude := by
  induction e with
  | zero => exact le_rfl
  | seconds x => exact abs_nonneg _
  | add first second ihFirst ihSecond => exact add_nonneg ihFirst ihSecond
  | scaled inner times ih => exact mul_nonneg ih (Nat.cast_nonneg _)

theorem abs_exactSeconds_le (e : Expression) : |e.exactSeconds| ≤ e.magnitude := by
  induction e with
  | zero => simp [exactSeconds, magnitude]
  | seconds x => exact le_rfl
  | add first second ihFirst ihSecond =>
    exact (abs_add_le _ _).trans (add_le_add ihFirst ihSecond)
  | scaled inner times ih =>
    rw [exactSeconds, magnitude, abs_mul, Nat.abs_cast]
    exact mul_le_mul_of_nonneg_right ih (Nat.cast_nonneg _)

theorem Bounded.magnitude_lt {e : Expression} (bounded : e.Bounded) : e.magnitude < 2 ^ 1022 := by
  cases e with
  | zero => simp [magnitude]
  | seconds x => exact bounded.2
  | add first second => exact bounded.2.2
  | scaled inner times => exact bounded.2

/-! ## Nothing is lost -/

theorem sum_rational (partials : List Binary64) :
    (partials.map rational).sum = sumSteps partials / 2 ^ 1074 := by
  induction partials with
  | nil => simp
  | cons x rest ih =>
    rw [List.map_cons, List.sum_cons, ih, rational_eq, sumSteps_cons, ← add_div]
    push_cast
    rfl

/-- The duration of an expression holds its exact value. -/
structure Holds (e : Expression) : Prop where
  finite : e.duration.Finite
  exactly : e.exactSeconds = e.duration.exactSteps / 2 ^ 1074

theorem Holds.abs_eq {e : Expression} (holds : Holds e) :
    ((|e.duration.exactSteps| : ℤ) : ℚ) / 2 ^ 1074 = |e.exactSeconds| := by
  rw [holds.exactly, abs_div, abs_of_pos (show (0 : ℚ) < 2 ^ 1074 by positivity), Int.cast_abs]

/-- Steps of an amount below `2 ^ 1022` seconds. -/
theorem steps_lt {n : ℤ} (less : (n : ℚ) / 2 ^ 1074 < 2 ^ 1022) : 4 * n < 2 ^ overflow := by
  rw [div_lt_iff₀ (by positivity), ← pow_add] at less
  have whole : n < 2 ^ (1022 + 1074) := by
    rwa [← Int.cast_lt (R := ℚ), Int.cast_pow, Int.cast_ofNat]
  rw [overflow, show 53 + 2045 = (1022 + 1074) + 2 by rfl, pow_add]
  omega

theorem Holds.steps_lt {e : Expression} (holds : Holds e) (less : e.magnitude < 2 ^ 1022) :
    4 * |e.duration.exactSteps| < 2 ^ overflow := by
  refine Expression.steps_lt ?_
  rw [holds.abs_eq]
  exact e.abs_exactSeconds_le.trans_lt less

theorem Holds.add {first second : Expression} (holdsFirst : Holds first)
    (holdsSecond : Holds second) (less : first.magnitude + second.magnitude < 2 ^ 1022) :
    Holds (.add first second) := by
  have small : 4 * (|first.duration.exactSteps| + |second.duration.exactSteps|) < 2 ^ overflow := by
    refine Expression.steps_lt ?_
    rw [Int.cast_add, add_div, holdsFirst.abs_eq, holdsSecond.abs_eq]
    exact (add_le_add first.abs_exactSeconds_le second.abs_exactSeconds_le).trans_lt less
  have nonneg := abs_nonneg first.duration.exactSteps
  have nonnegSecond := abs_nonneg second.duration.exactSteps
  have finite := finite_add holdsFirst.finite holdsSecond.finite (by omega)
  refine ⟨finite, ?_⟩
  rw [exactSeconds, holdsFirst.exactly, holdsSecond.exactly, ← add_div, duration,
    (add_spec finite).2.2]
  push_cast
  rfl

theorem Holds.scaled {inner : Expression} {times : UInt32} (holds : Holds inner)
    (less : inner.magnitude * times.toNat < 2 ^ 1022) : Holds (.scaled inner times) := by
  have small : 4 * |inner.duration.exactSteps * times.toNat| < 2 ^ overflow := by
    refine Expression.steps_lt ?_
    rw [abs_mul, Int.cast_mul, mul_div_right_comm, holds.abs_eq, Nat.abs_cast]
    exact (mul_le_mul_of_nonneg_right inner.abs_exactSeconds_le (Nat.cast_nonneg _)).trans_lt less
  have nonneg := abs_nonneg (inner.duration.exactSteps * times.toNat)
  have finite : (inner.duration.scale times).Finite := finite_scale holds.finite (by omega)
  refine ⟨finite, ?_⟩
  rw [exactSeconds, holds.exactly, ← mul_div_right_comm, duration, (scale_spec finite).2]
  push_cast
  rfl

/-- Nothing is lost in the duration of a bounded expression. -/
theorem Bounded.holds {e : Expression} (bounded : e.Bounded) : Holds e := by
  induction e with
  | zero => exact ⟨finite_zero, by simp [exactSeconds, duration]⟩
  | seconds x =>
    refine ⟨?_, ?_⟩
    · intro y present
      obtain rfl := List.mem_singleton.mp present
      exact bounded.1
    · rw [exactSeconds, duration, exactSteps_ofSeconds, rational_eq]
  | add first second ihFirst ihSecond =>
    exact (ihFirst bounded.1).add (ihSecond bounded.2.1) bounded.2.2
  | scaled inner times ih => exact (ih bounded.1).scaled bounded.2

/-! ## Values -/

theorem Bounded.isFinite_value {e : Expression} (bounded : e.Bounded) :
    e.duration.value.isFinite = true :=
  Duration.isFinite_value bounded.holds.finite (bounded.holds.steps_lt bounded.magnitude_lt)

theorem Bounded.value_nearestEven {e : Expression} (bounded : e.Bounded) :
    NearestEven e.exactSeconds e.duration.value := by
  have rounded := rounded_value bounded.isFinite_value
  rw [bounded.holds.exactly]
  exact nearestEven_of_rounded bounded.isFinite_value rounded

theorem Bounded.exactSeconds_eq_iff {e f : Expression} (bounded : e.Bounded)
    (boundedF : f.Bounded) :
    e.exactSeconds = f.exactSeconds ↔ e.duration.exactSteps = f.duration.exactSteps := by
  rw [bounded.holds.exactly, boundedF.holds.exactly, div_left_inj' (by positivity), Int.cast_inj]

/-- Equal sums have equal values, up to the sign of zero. -/
theorem Bounded.sameNumber {e f : Expression} (bounded : e.Bounded) (boundedF : f.Bounded)
    (same : e.exactSeconds = f.exactSeconds) : SameNumber e.duration.value f.duration.value :=
  (sameNumber_iff_steps bounded.isFinite_value boundedF.isFinite_value).mpr
    (value_steps_eq bounded.isFinite_value boundedF.isFinite_value
      ((bounded.exactSeconds_eq_iff boundedF).mp same))

theorem Bounded.beq {e f : Expression} (bounded : e.Bounded) (boundedF : f.Bounded)
    (same : e.exactSeconds = f.exactSeconds) : (e.duration == f.duration) = true :=
  beq_of_exactSteps bounded.isFinite_value boundedF.isFinite_value
    ((bounded.exactSeconds_eq_iff boundedF).mp same)

theorem Bounded.isZero_iff {e : Expression} (bounded : e.Bounded) :
    e.duration.isZero = true ↔ e.exactSeconds = 0 := by
  rw [Duration.isZero_iff bounded.isFinite_value, ← exactSteps_zero]
  exact (bounded.exactSeconds_eq_iff (f := .zero) trivial).symm

/-! ## Products and repeated sums -/

theorem exactSeconds_repeated (e : Expression) (count : ℕ) :
    (e.repeated count).exactSeconds = e.exactSeconds * count := by
  induction count with
  | zero => simp [repeated, exactSeconds]
  | succ count ih =>
    rw [repeated, exactSeconds, ih]
    push_cast
    ring

theorem magnitude_repeated (e : Expression) (count : ℕ) :
    (e.repeated count).magnitude = e.magnitude * count := by
  induction count with
  | zero => simp [repeated, magnitude]
  | succ count ih =>
    rw [repeated, magnitude, ih]
    push_cast
    ring

theorem Bounded.repeated {e : Expression} (bounded : e.Bounded) {count : ℕ}
    (less : e.magnitude * count < 2 ^ 1022) : (e.repeated count).Bounded := by
  induction count with
  | zero => trivial
  | succ count ih =>
    have smaller : e.magnitude * count ≤ e.magnitude * (count + 1 : ℕ) :=
      mul_le_mul_of_nonneg_left (by exact_mod_cast Nat.le_succ count) e.magnitude_nonneg
    refine ⟨ih (smaller.trans_lt less), bounded, ?_⟩
    have same := e.magnitude_repeated (count + 1)
    rw [Expression.repeated, magnitude] at same
    rw [same]
    exact less

/-- The duration of a bounded expression holds its exact value in finite partial sums, and its value
is that exact value, rounded to nearest, a tie to even. So nothing else about the expression
matters, neither the order and grouping of its sums nor how its counts are applied. -/
theorem exact_value {e : Expression} (bounded : e.Bounded) :
    e.duration.Finite ∧ (e.duration.partials.map rational).sum = e.exactSeconds ∧
    NearestEven e.exactSeconds e.duration.value ∧
    (e.duration.isZero = true ↔ e.exactSeconds = 0) ∧
    (∀ f : Expression, f.Bounded → f.exactSeconds = e.exactSeconds →
      SameNumber f.duration.value e.duration.value ∧ (f.duration == e.duration) = true) ∧
    (∀ times : UInt32, e.magnitude * times.toNat < 2 ^ 1022 →
      (e.duration.scale times == (e.repeated times.toNat).duration) = true) ∧
    ∀ a b : UInt32, a.toNat * b.toNat < 2 ^ 32 → e.magnitude * a.toNat < 2 ^ 1022 →
      e.magnitude * a.toNat * b.toNat < 2 ^ 1022 →
      ((e.duration.scale a).scale b == e.duration.scale (a * b)) = true := by
  refine ⟨bounded.holds.finite, ?_, bounded.value_nearestEven, bounded.isZero_iff, ?_, ?_, ?_⟩
  · rw [sum_rational, bounded.holds.exactly]
    rfl
  · exact fun f boundedF same => ⟨boundedF.sameNumber bounded same, boundedF.beq bounded same⟩
  · intro times less
    have scaled : (e.scaled times).Bounded := ⟨bounded, less⟩
    refine scaled.beq (bounded.repeated less) ?_
    rw [exactSeconds_repeated, exactSeconds]
  · intro a b fits lessInner less
    have product : (a * b).toNat = a.toNat * b.toNat := by
      rw [UInt32.toNat_mul, Nat.mod_eq_of_lt fits]
    have twice : ((e.scaled a).scaled b).Bounded := ⟨⟨bounded, lessInner⟩, less⟩
    have once : (e.scaled (a * b)).Bounded := by
      refine ⟨bounded, ?_⟩
      rw [product, Nat.cast_mul, ← mul_assoc]
      exact less
    refine twice.beq once ?_
    rw [exactSeconds, exactSeconds, exactSeconds, product, Nat.cast_mul, mul_assoc]

/-- Three tenths, once as a product and once as a number, which differ by a rounding error. -/
def tenths : Expression :=
  .add (.scaled (.seconds (ofBits 0x3fb999999999999a)) 3) (.seconds (ofBits 0xbfd3333333333333))

theorem exact_value_tenths :
    tenths.Bounded ∧ (tenths.duration.partials.map rational).sum = tenths.exactSeconds ∧
    NearestEven tenths.exactSeconds tenths.duration.value ∧ tenths.duration.isZero = false ∧
    ((tenths.duration.scale 6).scale 7 == tenths.duration.scale 42) = true := by
  have bounded : tenths.Bounded :=
    ⟨⟨⟨rfl, by decide +kernel⟩, by decide +kernel⟩, ⟨rfl, by decide +kernel⟩, by decide +kernel⟩
  obtain ⟨_, sum, value, zero, _, _, product⟩ := exact_value bounded
  have nonzero : tenths.exactSeconds ≠ 0 := by decide +kernel
  refine ⟨bounded, sum, value, ?_, product 6 7 (by decide) (by decide +kernel)
    (by decide +kernel)⟩
  rw [Bool.eq_false_iff, Ne, zero]
  exact nonzero

end Expression

end PulseSequencer.Duration

import Mathlib.Algebra.BigOperators.Group.List.Basic
import PulseSequencer.Duration
import PulseSequencer.Proofs.Binary64.Steps

/-!
# Durations are exact

The exact duration is the sum of the steps of the partial sums. Nothing is lost when durations are
added or multiplied, as long as no partial sum overflows, and an overflow shows in the value.

Results:
1. `fastTwoSum_spec`: a rounded sum together with its error.
2. `push_spec`, `add_spec`, `scale_spec`: what the operations do to the exact duration.
3. `finite_of_value`: a duration with a finite value has finite partial sums only.
-/

namespace PulseSequencer.Duration

open Binary64

/-! ## Two terms -/

/-- The first term is the larger one, or it is zero. -/
def Dominates (x y : ℤ) : Prop := |y| ≤ |x| ∨ x = 0

/-- A rounded sum and its error. -/
structure Split (x y : ℤ) (high low : Binary64) : Prop where
  finite : low.isFinite = true
  rounded : Rounded (x + y) high.steps
  error : low.steps = x + y - high.steps

theorem fastTwoSum_spec {x y : Binary64} (finiteX : x.isFinite = true)
    (finiteY : y.isFinite = true) (dominates : Dominates x.steps y.steps)
    (finite : (x + y).isFinite = true) :
    Split x.steps y.steps (fastTwoSum x y).1 (fastTwoSum x y).2 := by
  have rounded := (add_nearestTo finiteX finiteY).rounded finite
  have representableX := representable_steps x
  have representableY := representable_steps y
  -- The part of `y` that went into the sum is a number, and so is the part that did not.
  have difference : Representable ((x + y).steps - x.steps) ∧
      |(x + y).steps - x.steps| < 2 ^ overflow := by
    rcases dominates with le | zero
    · refine ⟨representable_difference representableX representableY le rounded, ?_⟩
      exact (abs_difference_le_max le rounded).trans_lt (max_lt (abs_steps_lt x) (abs_steps_lt _))
    · rw [zero, zero_add] at rounded
      rw [zero, sub_zero, rounded.eq_self representableY]
      exact ⟨representableY, abs_steps_lt y⟩
  obtain ⟨finiteDifference, sameDifference⟩ :=
    (sub_nearestTo finite finiteX).eq_of_representable difference.1 difference.2
  have error := sub_nearestTo finiteY finiteDifference
  rw [sameDifference, show y.steps - ((x + y).steps - x.steps)
    = x.steps + y.steps - (x + y).steps by ring] at error
  obtain ⟨finiteLow, sameLow⟩ := error.eq_of_representable
    (representable_error representableX representableY rounded)
    ((abs_error_le representableX rounded).trans_lt (abs_steps_lt y))
  exact ⟨finiteLow, rounded, sameLow⟩

/-! ## Partial sums -/

/-- No partial sum has overflown. -/
def AllFinite (partials : List Binary64) : Prop :=
  ∀ x ∈ partials, x.isFinite = true

/-- The last partial sum has not overflown. -/
def TopFinite (partials : List Binary64) : Prop :=
  ∀ top, partials.getLast? = some top → top.isFinite = true

/-- The sum of partial sums in steps. -/
def sumSteps (partials : List Binary64) : ℤ :=
  (partials.map steps).sum

@[simp] theorem sumSteps_nil : sumSteps [] = 0 := rfl

@[simp] theorem sumSteps_cons (x : Binary64) (rest : List Binary64) :
    sumSteps (x :: rest) = x.steps + sumSteps rest := by
  simp [sumSteps]

theorem AllFinite.top {partials : List Binary64} (finite : AllFinite partials) :
    TopFinite partials :=
  fun top isTop => finite top (List.mem_of_getLast? isTop)

/-- The two terms in the order in which they are added. -/
def splitPartial (y x : Binary64) : Binary64 × Binary64 :=
  if x.abs < y.abs then fastTwoSum y x else fastTwoSum x y

theorem pushPartial_cons (y : Binary64) (rest : List Binary64) (x : Binary64) :
    pushPartial (y :: rest) x
      = if (splitPartial y x).2.isZero then pushPartial rest (splitPartial y x).1
        else (splitPartial y x).2 :: pushPartial rest (splitPartial y x).1 := rfl

theorem pushPartial_ne_nil (partials : List Binary64) (x : Binary64) :
    pushPartial partials x ≠ [] := by
  induction partials generalizing x with
  | nil => simp [pushPartial]
  | cons y rest ih =>
    rw [pushPartial_cons]
    split
    · exact ih _
    · simp

/-- Two terms are split without a loss, unless their sum overflows. -/
theorem splitPartial_spec {x y : Binary64} (finite : (splitPartial y x).1.isFinite = true) :
    x.isFinite = true ∧ y.isFinite = true ∧
    Split x.steps y.steps (splitPartial y x).1 (splitPartial y x).2 := by
  unfold splitPartial at finite ⊢
  split at finite
  · next less =>
    rw [if_pos less]
    obtain ⟨finiteY, finiteX⟩ := isFinite_of_add finite
    rw [lt_iff_steps (by simpa using finiteX) (by simpa using finiteY), steps_abs,
      steps_abs] at less
    obtain ⟨finiteLow, rounded, error⟩ :=
      fastTwoSum_spec finiteY finiteX (.inl less.le) finite
    exact ⟨finiteX, finiteY, finiteLow, by rwa [add_comm], by rwa [add_comm x.steps]⟩
  · next notLess =>
    rw [if_neg notLess]
    obtain ⟨finiteX, finiteY⟩ := isFinite_of_add finite
    rw [lt_iff_steps (by simpa using finiteX) (by simpa using finiteY), steps_abs, steps_abs,
      not_lt] at notLess
    exact ⟨finiteX, finiteY, fastTwoSum_spec finiteX finiteY (.inl notLess) finite⟩

/-- The last partial sum is that of the rest. -/
theorem TopFinite.of_cons {y x : Binary64} {rest : List Binary64}
    (finite : TopFinite (pushPartial (y :: rest) x)) :
    TopFinite (pushPartial rest (splitPartial y x).1) := by
  rw [pushPartial_cons] at finite
  refine fun top isTop => finite top ?_
  split
  · exact isTop
  · rw [List.getLast?_cons_of_ne_nil (pushPartial_ne_nil _ _)]
    exact isTop

/-- An overflow moves on to the last partial sum, so a finite one says that there was none. -/
theorem isFinite_of_push {partials : List Binary64} {x : Binary64}
    (finite : TopFinite (pushPartial partials x)) : x.isFinite = true := by
  induction partials generalizing x with
  | nil => exact finite x rfl
  | cons y rest ih => exact (splitPartial_spec (ih finite.of_cons)).1

/-- One step of a push: a sum that goes on and an error that stays, unless it is zero. -/
theorem pushPartial_cons_spec {y x : Binary64} {rest : List Binary64}
    (finite : TopFinite (pushPartial (y :: rest) x)) :
    ∃ high low, y.isFinite = true ∧ Split x.steps y.steps high low ∧
      TopFinite (pushPartial rest high) ∧
      (low.steps = 0 ∧ pushPartial (y :: rest) x = pushPartial rest high ∨
      low.steps ≠ 0 ∧ pushPartial (y :: rest) x = low :: pushPartial rest high) := by
  obtain ⟨_, finiteY, split_⟩ := splitPartial_spec (isFinite_of_push finite.of_cons)
  refine ⟨_, _, finiteY, split_, finite.of_cons, ?_⟩
  have zero := isZero_iff_steps split_.finite
  rw [pushPartial_cons]
  by_cases isZero : (splitPartial y x).2.isZero = true
  · exact .inl ⟨zero.mp isZero, if_pos isZero⟩
  · exact .inr ⟨mt zero.mpr isZero, if_neg isZero⟩

/-- A push loses nothing. -/
theorem pushPartial_spec {partials : List Binary64} {x : Binary64}
    (finite : TopFinite (pushPartial partials x)) :
    AllFinite partials ∧ AllFinite (pushPartial partials x) ∧
    sumSteps (pushPartial partials x) = sumSteps partials + x.steps := by
  induction partials generalizing x with
  | nil =>
    have finiteX : x.isFinite = true := finite x rfl
    exact ⟨by simp [AllFinite], by simpa [AllFinite, pushPartial] using finiteX,
      by simp [pushPartial]⟩
  | cons y rest ih =>
    obtain ⟨high, low, finiteY, split_, finiteRest, result⟩ := pushPartial_cons_spec finite
    obtain ⟨finiteBefore, finiteAfter, sum⟩ := ih finiteRest
    have total : low.steps + sumSteps (pushPartial rest high)
        = sumSteps (y :: rest) + x.steps := by
      rw [split_.error, sum, sumSteps_cons]
      ring
    refine ⟨List.forall_mem_cons.mpr ⟨finiteY, finiteBefore⟩, ?_⟩
    rcases result with ⟨zero, same⟩ | ⟨_, same⟩
    · rw [same, ← total, zero, zero_add]
      exact ⟨finiteAfter, rfl⟩
    · rw [same, sumSteps_cons, total]
      exact ⟨List.forall_mem_cons.mpr ⟨split_.finite, finiteAfter⟩, rfl⟩

/-! ## Durations -/

/-- The exact duration in steps. -/
def exactSteps (d : Duration) : ℤ := sumSteps d.partials

/-- No partial sum has overflown. -/
def Finite (d : Duration) : Prop := AllFinite d.partials

@[simp] theorem exactSteps_zero : zero.exactSteps = 0 := rfl

theorem push_spec {d : Duration} {x : Binary64} (finite : (d.push x).Finite) :
    d.Finite ∧ x.isFinite = true ∧ (d.push x).exactSteps = d.exactSteps + x.steps := by
  obtain ⟨finiteD, _, sum⟩ := pushPartial_spec finite.top
  exact ⟨finiteD, isFinite_of_push finite.top, sum⟩

theorem exactSteps_ofSeconds {x : Binary64} : (ofSeconds x).exactSteps = x.steps := by
  simp [ofSeconds, push, exactSteps, zero, pushPartial]

theorem foldl_push_spec {xs : List Binary64} {d : Duration} (finite : (xs.foldl push d).Finite) :
    d.Finite ∧ AllFinite xs ∧ (xs.foldl push d).exactSteps = d.exactSteps + sumSteps xs := by
  induction xs generalizing d with
  | nil => exact ⟨finite, by simp [AllFinite], by simp⟩
  | cons x rest ih =>
    obtain ⟨finitePushed, finiteRest, sum⟩ := ih finite
    obtain ⟨finiteD, finiteX, pushed⟩ := push_spec finitePushed
    refine ⟨finiteD, List.forall_mem_cons.mpr ⟨finiteX, finiteRest⟩, ?_⟩
    rw [List.foldl_cons, sum, pushed, sumSteps_cons]
    ring

theorem add_spec {d e : Duration} (finite : (d + e).Finite) :
    d.Finite ∧ e.Finite ∧ (d + e).exactSteps = d.exactSteps + e.exactSteps :=
  foldl_push_spec finite

theorem finite_neg {d : Duration} : (-d).Finite ↔ d.Finite := by
  show (∀ x ∈ d.partials.map Binary64.neg, _) ↔ (∀ x ∈ d.partials, _)
  rw [List.forall_mem_map]
  exact forall₂_congr fun x _ => by rw [show x.neg = -x from rfl, isFinite_neg]

theorem sumSteps_map_neg (partials : List Binary64) :
    sumSteps (partials.map Binary64.neg) = -sumSteps partials := by
  induction partials with
  | nil => rfl
  | cons x rest ih =>
    rw [List.map_cons, sumSteps_cons, sumSteps_cons, ih, show x.neg = -x from rfl, steps_neg]
    ring

theorem exactSteps_neg (d : Duration) : (-d).exactSteps = -d.exactSteps :=
  sumSteps_map_neg d.partials

theorem total_spec {durations : List Duration} {d : Duration}
    (finite : (durations.foldl (· + ·) d).Finite) :
    d.Finite ∧ (∀ e ∈ durations, e.Finite) ∧
    (durations.foldl (· + ·) d).exactSteps = d.exactSteps + (durations.map exactSteps).sum := by
  induction durations generalizing d with
  | nil => exact ⟨finite, by simp, by simp⟩
  | cons e rest ih =>
    obtain ⟨finiteSum, finiteRest, sum⟩ := ih finite
    obtain ⟨finiteD, finiteE, added⟩ := add_spec finiteSum
    refine ⟨finiteD, List.forall_mem_cons.mpr ⟨finiteE, finiteRest⟩, ?_⟩
    rw [List.foldl_cons, sum, added, List.map_cons, List.sum_cons]
    ring

/-! ## Products -/

/-- One partial sum of a product: the rounded product and its error are both pushed. -/
theorem push_product_spec {d : Duration} {x factor : Binary64} {k : ℤ} (whole : IsWhole k factor)
    (small : |k| < 2 ^ 32)
    (finite : ((d.push (x.fusedMulAdd factor (-(x * factor)))).push (x * factor)).Finite) :
    d.Finite ∧ x.isFinite = true ∧
    ((d.push (x.fusedMulAdd factor (-(x * factor)))).push (x * factor)).exactSteps
      = d.exactSteps + x.steps * k := by
  obtain ⟨finiteFirst, finiteHigh, sumHigh⟩ := push_spec finite
  obtain ⟨finiteD, finiteLow, sumLow⟩ := push_spec finiteFirst
  obtain ⟨finiteX, _⟩ := isFinite_of_mul finiteHigh
  have rounded := (mul_nearestTo finiteX whole).rounded finiteHigh
  have error := fusedMulAdd_nearestTo finiteX whole ((isFinite_neg (x * factor)).trans finiteHigh)
  rw [steps_neg, ← sub_eq_add_neg] at error
  have low := (error.rounded finiteLow).eq_self
    (representable_product_error (representable_steps x) small rounded)
  refine ⟨finiteD, finiteX, ?_⟩
  rw [sumHigh, sumLow, low]
  ring

theorem scaleBy_spec {d : Duration} {factor : Binary64} {k : ℤ} (whole : IsWhole k factor)
    (small : |k| < 2 ^ 32) (finite : (d.scaleBy factor).Finite) :
    d.Finite ∧ (d.scaleBy factor).exactSteps = d.exactSteps * k := by
  have fold : ∀ (xs : List Binary64) (e : Duration),
      (xs.foldl (fun product x =>
        (product.push (x.fusedMulAdd factor (-(x * factor)))).push (x * factor)) e).Finite →
      e.Finite ∧ AllFinite xs ∧
      (xs.foldl (fun product x =>
        (product.push (x.fusedMulAdd factor (-(x * factor)))).push (x * factor)) e).exactSteps
        = e.exactSteps + sumSteps xs * k := by
    intro xs
    induction xs with
    | nil =>
      intro e finite
      exact ⟨finite, by simp [AllFinite], by simp⟩
    | cons x rest ih =>
      intro e finite
      obtain ⟨finitePushed, finiteRest, sum⟩ := ih _ finite
      obtain ⟨finiteE, finiteX, pushed⟩ := push_product_spec whole small finitePushed
      refine ⟨finiteE, List.forall_mem_cons.mpr ⟨finiteX, finiteRest⟩, ?_⟩
      rw [List.foldl_cons, sum, pushed, sumSteps_cons]
      ring
  obtain ⟨_, finiteD, product⟩ := fold d.partials zero finite
  exact ⟨finiteD, by rw [scaleBy, product, exactSteps_zero, zero_add]; rfl⟩

theorem scale_spec {d : Duration} {times : UInt32} (finite : (d.scale times).Finite) :
    d.Finite ∧ (d.scale times).exactSteps = d.exactSteps * times.toNat := by
  have below := times.toNat_lt
  refine scaleBy_spec (isWhole_ofNat (by omega)) ?_ finite
  rw [Nat.abs_cast]
  exact_mod_cast below

/-! ## Overflow shows in the value -/

theorem isFinite_of_nudge {high low : Binary64} {rest : List Binary64}
    (finite : (nudge high low rest).isFinite = true) : high.isFinite = true := by
  unfold nudge at finite
  split at finite
  · exact finite
  · split at finite
    · simp only at finite
      split at finite
      · exact (isFinite_of_add finite).1
      · exact finite
    · exact finite

theorem roundFrom_cons (high y : Binary64) (rest : List Binary64) :
    roundFrom high (y :: rest)
      = if (fastTwoSum high y).2.isZero then roundFrom (high + y) rest
        else nudge (high + y) (fastTwoSum high y).2 rest := rfl

/-- A finite rounded sum starts from finite terms. -/
theorem isFinite_of_roundFrom {high : Binary64} {rest : List Binary64}
    (finite : (roundFrom high rest).isFinite = true) : high.isFinite = true := by
  induction rest generalizing high with
  | nil => exact finite
  | cons y rest ih =>
    rw [roundFrom_cons] at finite
    split at finite
    · exact (isFinite_of_add (ih finite)).1
    · exact (isFinite_of_add (isFinite_of_nudge finite)).1

theorem Grown.allFinite {partials : List Binary64} (grown : Grown partials)
    (finite : TopFinite partials) : AllFinite partials := by
  induction grown with
  | nil => simp [AllFinite]
  | push x _ _ => exact (pushPartial_spec finite).2.1
  | @neg partials _ ih =>
    have inner : AllFinite partials := by
      refine ih fun top isTop => ?_
      have := finite top.neg (by rw [List.getLast?_map, isTop]; rfl)
      rwa [show top.neg = -top from rfl, isFinite_neg] at this
    intro x present
    obtain ⟨y, inPartials, rfl⟩ := List.mem_map.mp present
    rw [show y.neg = -y from rfl, isFinite_neg]
    exact inner y inPartials

/-- A duration with a finite value has finite partial sums only. -/
theorem finite_of_value {d : Duration} (finite : d.value.isFinite = true) : d.Finite := by
  refine d.grown.allFinite fun top isTop => ?_
  rw [← List.head?_reverse] at isTop
  unfold value at finite
  split at finite
  · next empty =>
    rw [empty] at isTop
    cases isTop
  · next last rest found =>
    rw [found] at isTop
    cases isTop
    exact isFinite_of_roundFrom finite

end PulseSequencer.Duration

import Mathlib.Algebra.BigOperators.Ring.List
import Mathlib.Algebra.Order.BigOperators.Group.List
import PulseSequencer.Proofs.Duration.Value

/-!
# Durations that do not overflow

Partial sums do not overlap, so the sums of the smaller ones never exceed the whole. What is carried
through a push is such a sum, up to the errors left behind, and those are tiny. So an operation
whose exact result is far enough below the largest number cannot overflow on the way.

Results:
1. `Finite.abs_initial_le`: the sums of the smaller partial sums are at most as large as the
   duration.
2. `Carry.step`: what is carried through a push grows with the sums that it has passed only.
3. `finite_push`, `finite_add`, `finite_scale`: operations on durations without an overflow.
4. `isFinite_value`, `value_ne_nan`: a value without an overflow.
5. `finite_total`, `finite_scale_of_safe`, `isFinite_value_of_safe`: the same for durations up to
   `safe`.
-/

namespace PulseSequencer.Duration

open Binary64

/-! ## Sums of the smaller partial sums -/

section

variable {t : ℕ} {small z : ℤ}

theorem two_pow_size_le (nonzero : z ≠ 0) : 2 ^ Nat.size z.natAbs ≤ 2 * |z| := by
  obtain ⟨k, size⟩ : ∃ k, Nat.size z.natAbs = k + 1 :=
    Nat.exists_eq_succ_of_ne_zero (by simpa [Nat.size_eq_zero] using nonzero)
  have large : 2 ^ k ≤ z.natAbs := Nat.lt_size.mp (by omega)
  rw [size, pow_succ, mul_comm, Int.abs_eq_natAbs]
  exact_mod_cast Nat.mul_le_mul_left 2 large

theorem abs_le_abs_add (less : 2 * |small| < 2 ^ t) (dvd : 2 ^ t ∣ z) : |small| ≤ |small + z| := by
  by_cases zero : z = 0
  · rw [zero, add_zero]
  · have large := two_pow_le_abs dvd zero
    have triangle := abs_sub_abs_le_abs_add z small
    rw [add_comm] at triangle
    omega

/-- A number and a multiple of a power of two above it do not carry into the next bit. -/
theorem abs_add_lt_size (less : 2 * |small| < 2 ^ t) (dvd : 2 ^ t ∣ z) (nonzero : z ≠ 0) :
    |small + z| < 2 ^ Nat.size z.natAbs := by
  have below := abs_lt_size z
  have large := two_pow_le_abs dvd nonzero
  have sizes : t ≤ Nat.size z.natAbs := by
    by_contra finer
    have := two_pow_le (le_of_not_ge finer)
    omega
  have room := add_two_pow_le ((dvd_abs _ _).mpr dvd) (two_pow_dvd sizes) below
  have triangle := abs_add_le small z
  have positive := abs_nonneg small
  omega

/-- Numbers that do not overlap: no sum of the first ones exceeds the sum of all. -/
theorem abs_add_initial_le {terms taken : List ℤ} (less : 2 * |small| < 2 ^ t)
    (dvd : ∀ z ∈ terms, 2 ^ t ∣ z) (separated : terms.Pairwise Below)
    (initial : taken <+: terms) : |small + taken.sum| ≤ |small + terms.sum| := by
  induction terms generalizing small t taken with
  | nil => rw [List.prefix_nil.mp initial]
  | cons y rest ih =>
    cases taken with
    | nil =>
      rw [List.sum_nil, add_zero]
      exact abs_le_abs_add less (List.dvd_sum dvd)
    | cons first others =>
      obtain ⟨rfl, initialRest⟩ := List.cons_prefix_cons.mp initial
      obtain ⟨dvdFirst, dvdRest⟩ := List.forall_mem_cons.mp dvd
      obtain ⟨below, separatedRest⟩ := List.pairwise_cons.mp separated
      rw [List.sum_cons, List.sum_cons, ← add_assoc, ← add_assoc]
      by_cases zero : first = 0
      · rw [zero, add_zero]
        exact ih less dvdRest separatedRest initialRest
      · refine ih (t := Nat.size first.natAbs + 1) ?_ below separatedRest initialRest
        have := abs_add_lt_size less dvdFirst zero
        rw [pow_succ]
        omega

end

/-- The sums of the smaller partial sums are at most as large as the exact duration. -/
theorem Finite.abs_initial_le {d : Duration} (finite : d.Finite) {taken : List Binary64}
    (initial : taken <+: d.partials) : |sumSteps taken| ≤ |d.exactSteps| := by
  have separated := (d.grown.separated finite).below
  have zero : 2 * |(0 : ℤ)| < 2 ^ 0 := by simp
  have le := abs_add_initial_le zero (by simp) separated (initial.map steps)
  rwa [zero_add, zero_add] at le

/-- A partial sum is the difference of two such sums. -/
theorem Finite.abs_partial_le {d : Duration} (finite : d.Finite) {x : Binary64}
    (present : x ∈ d.partials) : |x.steps| ≤ 2 * |d.exactSteps| := by
  obtain ⟨before, after, partials⟩ := List.mem_iff_append.mp present
  have without : before <+: d.partials := ⟨x :: after, partials.symm⟩
  have including : before ++ [x] <+: d.partials := ⟨after, by rw [partials]; simp⟩
  have first := finite.abs_initial_le without
  have second := finite.abs_initial_le including
  rw [sumSteps, List.map_append, List.sum_append] at second
  have triangle := abs_sub_abs_le_abs_add x.steps (sumSteps before)
  rw [add_comm] at triangle
  simp only [sumSteps, List.map_cons, List.map_nil, List.sum_singleton] at *
  omega

/-! ## Pushes -/

theorem finite_zero : zero.Finite := by simp [Finite, zero, AllFinite]

/-- A push on its way: `x` is carried, `partials` are ahead, and errors that add up to `lost` were
left behind. All sums of the exact terms so far stay within `bound`. -/
structure Carry (bound lost : ℤ) (x : Binary64) (partials : List Binary64) : Prop where
  spacing : ∃ t, 2 * |lost| < 2 ^ t ∧ 2 ^ t ∣ x.steps ∧ ∀ y ∈ partials, 2 ^ t ∣ y.steps
  tiny : 2 ^ 51 * |lost| ≤ bound
  separated : (partials.map steps).Pairwise Below
  within : ∀ taken, taken <+: partials → |lost + x.steps + sumSteps taken| ≤ bound

section

variable {bound lost : ℤ} {x y : Binary64} {rest : List Binary64}

/-- The next sum exceeds the bound by what was left behind at most. -/
theorem Carry.abs_le (carry : Carry bound lost x (y :: rest)) :
    |x.steps + y.steps| ≤ bound + |lost| := by
  have within := carry.within [y] (by simp)
  have triangle := abs_sub_abs_le_abs_add (x.steps + y.steps) lost
  rw [sumSteps_cons, sumSteps_nil, add_zero] at within
  rw [add_comm _ lost, ← add_assoc] at triangle
  omega

theorem Carry.isFinite (carry : Carry bound lost x (y :: rest))
    (fits : 8 * bound ≤ 7 * 2 ^ overflow) (finiteX : x.isFinite = true)
    (finiteY : y.isFinite = true) : (splitPartial y x).1.isFinite = true := by
  have sum := carry.abs_le
  have tiny := carry.tiny
  have rounded := rounded_nearest (x.steps + y.steps)
  have error := rounded.two_pow_mul_error_le
  have triangle := abs_sub_abs_le_abs_sub (nearest (x.steps + y.steps)) (x.steps + y.steps)
  rw [abs_sub_comm] at triangle
  have positive := two_pow_pos overflow
  have bounded : |nearest (x.steps + y.steps)| < 2 ^ overflow := by omega
  unfold splitPartial
  split
  · refine (add_nearestTo finiteY finiteX).isFinite ?_
    rwa [add_comm]
  · exact (add_nearestTo finiteX finiteY).isFinite bounded

/-- One step of a push: the rounded sum is carried on, and its error is left behind. -/
theorem Carry.step {high low : Binary64} (carry : Carry bound lost x (y :: rest))
    (split_ : Split x.steps y.steps high low) : Carry bound (lost + low.steps) high rest := by
  obtain ⟨t, less, dvdX, dvd⟩ := carry.spacing
  obtain ⟨dvdY, dvdRest⟩ := List.forall_mem_cons.mp dvd
  obtain ⟨below, separated⟩ := List.pairwise_cons.mp carry.separated
  have dvdHigh := split_.rounded.dvd_of_dvd (dvd_add dvdX dvdY)
  have sum := carry.abs_le
  have within : ∀ taken, taken <+: rest →
      |lost + low.steps + high.steps + sumSteps taken| ≤ bound := by
    intro taken initial
    have before := carry.within (y :: taken) (List.cons_prefix_cons.mpr ⟨rfl, initial⟩)
    rw [sumSteps_cons] at before
    rw [split_.error]
    convert before using 2
    ring
  by_cases zero : low.steps = 0
  · rw [zero, add_zero] at within ⊢
    exact ⟨⟨t, less, dvdHigh, dvdRest⟩, carry.tiny, separated, within⟩
  · have dvdLow : 2 ^ t ∣ low.steps := by
      rw [split_.error]
      exact dvd_sub (dvd_add dvdX dvdY) dvdHigh
    obtain ⟨belowHigh, belowOther⟩ := below_of_split (representable_steps x) split_ zero
    have lostLess := abs_add_lt_size less dvdLow zero
    refine ⟨⟨Nat.size low.steps.natAbs + 1, ?_, belowHigh, fun z present => ?_⟩, ?_, separated,
      within⟩
    · rw [pow_succ]
      omega
    · exact belowOther z.steps (below z.steps (List.mem_map_of_mem present))
    · have error := split_.rounded.two_pow_mul_error_le
      rw [← split_.error] at error
      have size := two_pow_size_le zero
      have tiny := carry.tiny
      have nonneg := abs_nonneg lost
      omega

end

theorem Carry.topFinite {bound lost : ℤ} {x : Binary64} {partials : List Binary64}
    (carry : Carry bound lost x partials) (fits : 8 * bound ≤ 7 * 2 ^ overflow)
    (finiteX : x.isFinite = true) (finite : AllFinite partials) :
    TopFinite (pushPartial partials x) := by
  induction partials generalizing x lost with
  | nil =>
    intro top isTop
    cases isTop
    exact finiteX
  | cons y rest ih =>
    obtain ⟨finiteY, finiteRest⟩ := List.forall_mem_cons.mp finite
    have finiteHigh := carry.isFinite fits finiteX finiteY
    obtain ⟨_, _, split_⟩ := splitPartial_spec finiteHigh
    have later := ih (carry.step split_) finiteHigh finiteRest
    intro top isTop
    refine later top ?_
    rw [pushPartial_cons] at isTop
    split at isTop
    · exact isTop
    · rwa [List.getLast?_cons_of_ne_nil (pushPartial_ne_nil _ _)] at isTop

theorem finite_push {d : Duration} {x : Binary64} (finite : d.Finite) (finiteX : x.isFinite = true)
    (small : 8 * (|x.steps| + |d.exactSteps|) ≤ 7 * 2 ^ overflow) : (d.push x).Finite := by
  have carry : Carry (|x.steps| + |d.exactSteps|) 0 x d.partials := by
    refine ⟨⟨0, by simp, by simp, by simp⟩, ?_, (d.grown.separated finite).below,
      fun taken initial => ?_⟩
    · have := abs_nonneg x.steps
      have := abs_nonneg d.exactSteps
      simp only [abs_zero, mul_zero]
      omega
    · have le := finite.abs_initial_le initial
      have triangle := abs_add_le x.steps (sumSteps taken)
      rw [zero_add]
      omega
  exact (Grown.push x d.grown).allFinite (carry.topFinite small finiteX finite)

/-! ## Sums -/

/-- A duration that grows step by step stays finite, as long as all exact sums on the way stay
within a bound below which no step overflows. -/
theorem finite_foldl {α : Type} {step : Duration → α → Duration} {xs : List α} {d : Duration}
    (amount : α → ℤ) (bound : ℤ)
    (advance : ∀ e, ∀ x ∈ xs, e.Finite → |e.exactSteps| ≤ bound →
      (step e x).Finite ∧ (step e x).exactSteps = e.exactSteps + amount x)
    (finite : d.Finite)
    (within : ∀ taken, taken <+: xs → |d.exactSteps + (taken.map amount).sum| ≤ bound) :
    (xs.foldl step d).Finite := by
  induction xs generalizing d with
  | nil => exact finite
  | cons x rest ih =>
    have start := within [] (List.nil_prefix)
    rw [List.map_nil, List.sum_nil, add_zero] at start
    obtain ⟨finiteNext, next⟩ := advance d x List.mem_cons_self finite start
    refine ih (fun e y present => advance e y (List.mem_cons_of_mem _ present)) finiteNext
      fun taken initial => ?_
    have later := within (x :: taken) (List.cons_prefix_cons.mpr ⟨rfl, initial⟩)
    rw [List.map_cons, List.sum_cons] at later
    rwa [next, add_assoc]

theorem finite_add {d e : Duration} (finiteD : d.Finite) (finiteE : e.Finite)
    (small : 8 * (|d.exactSteps| + 3 * |e.exactSteps|) ≤ 7 * 2 ^ overflow) : (d + e).Finite := by
  refine finite_foldl steps (|d.exactSteps| + |e.exactSteps|)
    (fun sum x present finite within => ?_) finiteD fun taken initial => ?_
  · have large := finiteE.abs_partial_le present
    have finiteNext := finite_push finite (finiteE x present) (by omega)
    exact ⟨finiteNext, (push_spec finiteNext).2.2⟩
  · have le := finiteE.abs_initial_le initial
    have triangle := abs_add_le d.exactSteps (sumSteps taken)
    exact triangle.trans (by omega)

/-! ## Products -/

theorem finite_push_product {d : Duration} {x factor : Binary64} {k : ℤ} (whole : IsWhole k factor)
    (small : |k| < 2 ^ 32) (finite : d.Finite) (finiteX : x.isFinite = true)
    (bound : 8 * |d.exactSteps| + 9 * |x.steps * k| ≤ 7 * 2 ^ overflow) :
    ((d.push (x.fusedMulAdd factor (-(x * factor)))).push (x * factor)).Finite := by
  have positive := abs_nonneg d.exactSteps
  have power := two_pow_pos overflow
  -- The error of the product is far smaller than the product.
  have tiny := (rounded_nearest (x.steps * k)).two_pow_mul_error_le
  have triangle := abs_sub_abs_le_abs_sub (nearest (x.steps * k)) (x.steps * k)
  rw [abs_sub_comm] at triangle
  have product := mul_nearestTo finiteX whole
  have finiteHigh := product.isFinite (by omega)
  have rounded := product.rounded finiteHigh
  rw [← product.steps_eq finiteHigh] at tiny triangle
  have error := fusedMulAdd_nearestTo finiteX whole ((isFinite_neg (x * factor)).trans finiteHigh)
  rw [steps_neg, ← sub_eq_add_neg] at error
  obtain ⟨finiteLow, sameLow⟩ := error.eq_of_representable
    (representable_product_error (representable_steps x) small rounded) (by omega)
  rw [← sameLow] at tiny triangle
  have nonneg := abs_nonneg (x.fusedMulAdd factor (-(x * factor))).steps
  have finiteFirst := finite_push finite finiteLow (by omega)
  obtain ⟨_, _, pushed⟩ := push_spec finiteFirst
  have sum := abs_add_le d.exactSteps (x.fusedMulAdd factor (-(x * factor))).steps
  rw [← pushed] at sum
  exact finite_push finiteFirst finiteHigh (by omega)

theorem finite_scaleBy {d : Duration} {factor : Binary64} {k : ℤ} (whole : IsWhole k factor)
    (small : |k| < 2 ^ 32) (finite : d.Finite)
    (bound : 26 * |d.exactSteps * k| ≤ 7 * 2 ^ overflow) : (d.scaleBy factor).Finite := by
  refine finite_foldl (fun x => x.steps * k) |d.exactSteps * k|
    (fun product x present finiteProduct within => ?_) finite_zero fun taken initial => ?_
  · have large := mul_le_mul_of_nonneg_right (finite.abs_partial_le present) (abs_nonneg k)
    rw [mul_assoc, ← abs_mul, ← abs_mul] at large
    have finiteNext :=
      finite_push_product whole small finiteProduct (finite x present) (by omega)
    exact ⟨finiteNext, (push_product_spec whole small finiteNext).2.2⟩
  · have le := mul_le_mul_of_nonneg_right (finite.abs_initial_le initial) (abs_nonneg k)
    rw [exactSteps_zero, zero_add, List.sum_map_mul_right, abs_mul, abs_mul]
    exact le

theorem finite_scale {d : Duration} {times : UInt32} (finite : d.Finite)
    (bound : 26 * |d.exactSteps * times.toNat| ≤ 7 * 2 ^ overflow) : (d.scale times).Finite := by
  have below := times.toNat_lt
  refine finite_scaleBy (isWhole_ofNat (by omega)) ?_ finite bound
  rw [Nat.abs_cast]
  exact_mod_cast below

/-! ## Values -/

/-- A correction is made only where it leads to a number. -/
theorem isFinite_nudge {n : ℤ} {high low : Binary64} (inexact : Inexact n high low)
    (rest : List Binary64) : (nudge high low rest).isFinite = true := by
  unfold nudge
  split
  · exact inexact.finiteHigh
  · split
    · dsimp only
      split
      · next equal =>
        have finiteDouble := inexact.double.1
        obtain ⟨_, same⟩ := numEq_iff.mp equal
        have finiteDifference : (high + low * 2 - high).isFinite = true := by
          rcases same with same | ⟨_, zero⟩
          · rwa [← same]
          · obtain ⟨negative, zero⟩ := eq_signedZero_of_isZero zero
            rw [zero]
            rfl
        exact (isFinite_of_sub finiteDifference).1
      · exact inexact.finiteHigh
    · exact inexact.finiteHigh

/-- A number outweighs the smaller ones below it, so it is at most twice as large as their sum. -/
theorem Stacked.abs_le {n : ℤ} {terms : List ℤ} (stacked : Stacked terms)
    (below : ∀ z ∈ terms, Below z n) : |n| ≤ 2 * |n + terms.sum| := by
  cases terms with
  | nil =>
    have := abs_nonneg n
    rw [List.sum_nil, add_zero]
    omega
  | cons z rest =>
    by_cases zero : n = 0
    · rw [zero, abs_zero]
      positivity
    · have large := two_pow_le_abs (below z List.mem_cons_self) zero
      have less := stacked.sum_lt.1
      have triangle := abs_sub_abs_le_abs_add n (z :: rest).sum
      rw [pow_succ] at large
      omega

theorem isFinite_roundFrom {high : Binary64} {rest : List Binary64}
    (finiteHigh : high.isFinite = true) (finiteRest : AllFinite rest)
    (stacked : Stacked (rest.map steps)) (below : ∀ y ∈ rest, Below y.steps high.steps)
    (small : 4 * |high.steps + sumSteps rest| < 2 ^ overflow) :
    (roundFrom high rest).isFinite = true := by
  induction rest generalizing high with
  | nil => exact finiteHigh
  | cons y rest ih =>
    obtain ⟨finiteY, finiteOthers⟩ := List.forall_mem_cons.mp finiteRest
    obtain ⟨belowY, belowOthers⟩ := List.forall_mem_cons.mp below
    rw [List.map_cons] at stacked
    have belowFirst := (List.pairwise_cons.mp stacked.below).1
    have belowSum : ∀ z ∈ rest, Below z.steps (high.steps + y.steps) := fun z present =>
      dvd_add (belowOthers z present) (belowFirst z.steps (List.mem_map_of_mem present))
    rw [sumSteps_cons, ← add_assoc] at small
    have sum := stacked.tail.abs_le (List.forall_mem_map.mpr belowSum)
    have tiny := (rounded_nearest (high.steps + y.steps)).two_pow_mul_error_le
    have triangle := abs_sub_abs_le_abs_sub (nearest (high.steps + y.steps))
      (high.steps + y.steps)
    rw [abs_sub_comm] at triangle
    have nonneg := abs_nonneg (high.steps + y.steps + sumSteps rest)
    change |high.steps + y.steps| ≤ 2 * |high.steps + y.steps + sumSteps rest| at sum
    have finiteSum := (add_nearestTo finiteHigh finiteY).isFinite (by omega)
    have split_ := fastTwoSum_spec finiteHigh finiteY belowY.dominates finiteSum
    have zero := isZero_iff_steps split_.finite
    rw [roundFrom_cons]
    split
    · next isZero =>
      have same : (high + y).steps = high.steps + y.steps := by
        have error := split_.error
        rw [zero.mp isZero] at error
        show (fastTwoSum high y).1.steps = _
        omega
      exact ih finiteSum finiteOthers stacked.tail (same ▸ belowSum) (same ▸ small)
    · next notZero =>
      exact isFinite_nudge
        ⟨finiteSum, split_.finite, split_.rounded, split_.error, mt zero.mpr notZero⟩ rest

theorem isFinite_value {d : Duration} (finite : d.Finite)
    (small : 4 * |d.exactSteps| < 2 ^ overflow) : d.value.isFinite = true := by
  obtain empty | ⟨top, rest, read⟩ := finite.read
  · rw [value, empty]
    rfl
  · rw [read.sum] at small
    rw [read.value_eq]
    exact isFinite_roundFrom read.finiteTop read.finiteRest read.stacked read.below small

theorem nudge_ne_nan {high : Binary64} (number : high ≠ .nan) (low : Binary64)
    (rest : List Binary64) : nudge high low rest ≠ .nan := by
  unfold nudge
  split
  · exact number
  · split
    · dsimp only
      split
      · next equal =>
        intro isNan
        rw [isNan] at equal
        obtain ⟨notNan, same | ⟨_, zero⟩⟩ := numEq_iff.mp equal
        · exact notNan same
        · cases zero
      · exact number
    · exact number

theorem roundFrom_ne_nan {high : Binary64} {rest : List Binary64} (number : high ≠ .nan)
    (finite : AllFinite rest) : roundFrom high rest ≠ .nan := by
  induction rest generalizing high with
  | nil => exact number
  | cons y rest ih =>
    obtain ⟨finiteY, finiteRest⟩ := List.forall_mem_cons.mp finite
    have sum := add_ne_nan number finiteY
    rw [roundFrom_cons]
    split
    · exact ih sum finiteRest
    · exact nudge_ne_nan sum _ rest

/-- Without an overflow of a partial sum there is a value, if only an infinite one. -/
theorem value_ne_nan {d : Duration} (finite : d.Finite) : d.value ≠ .nan := by
  obtain empty | ⟨top, rest, read⟩ := finite.read
  · intro isNan
    rw [value, empty] at isNan
    cases isNan
  · rw [read.value_eq]
    refine roundFrom_ne_nan (fun isNan => ?_) read.finiteRest
    have finiteTop := read.finiteTop
    rw [isNan] at finiteTop
    cases finiteTop

/-! ## Safe durations -/

/-- Nothing overflows up to this number of steps, which is `2 ^ 1019` seconds. -/
def safe : ℤ := 2 ^ 2093

theorem safe_mul : 32 * safe = 2 ^ overflow := by
  rw [safe, overflow, show 53 + 2045 = 2093 + 5 by rfl, pow_add, mul_comm]
  rfl

theorem safe_pos : 0 < safe := two_pow_pos _

theorem finite_total {durations : List Duration} {d : Duration} (finite : d.Finite)
    (allFinite : ∀ e ∈ durations, e.Finite) (nonneg : 0 ≤ d.exactSteps)
    (allNonneg : ∀ e ∈ durations, 0 ≤ e.exactSteps)
    (small : d.exactSteps + (durations.map exactSteps).sum ≤ safe) :
    (durations.foldl (· + ·) d).Finite := by
  induction durations generalizing d with
  | nil => exact finite
  | cons e rest ih =>
    obtain ⟨finiteE, finiteRest⟩ := List.forall_mem_cons.mp allFinite
    obtain ⟨nonnegE, nonnegRest⟩ := List.forall_mem_cons.mp allNonneg
    rw [List.map_cons, List.sum_cons] at small
    have later : 0 ≤ (rest.map exactSteps).sum :=
      List.sum_nonneg (List.forall_mem_map.mpr nonnegRest)
    have sum : (d + e).Finite := by
      refine finite_add finite finiteE ?_
      rw [abs_of_nonneg nonneg, abs_of_nonneg nonnegE, ← safe_mul]
      have := safe_pos
      omega
    obtain ⟨_, _, added⟩ := add_spec sum
    exact ih sum finiteRest (by dsimp only; omega) nonnegRest (by dsimp only; omega)

theorem finite_scale_of_safe {d : Duration} {times : UInt32} (finite : d.Finite)
    (nonneg : 0 ≤ d.exactSteps) (small : d.exactSteps * times.toNat ≤ safe) :
    (d.scale times).Finite := by
  refine finite_scale finite ?_
  rw [abs_of_nonneg (mul_nonneg nonneg (Int.natCast_nonneg _)), ← safe_mul]
  have := safe_pos
  omega

theorem isFinite_value_of_safe {d : Duration} (finite : d.Finite) (nonneg : 0 ≤ d.exactSteps)
    (small : d.exactSteps ≤ safe) : d.value.isFinite = true := by
  refine isFinite_value finite ?_
  rw [abs_of_nonneg nonneg, ← safe_mul]
  have := safe_pos
  omega

end PulseSequencer.Duration

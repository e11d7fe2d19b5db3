import Mathlib.Data.Nat.Size
import PulseSequencer.Proofs.Duration.Exact

/-!
# The value of a duration

Partial sums do not overlap: each one is a multiple of a power of two that the smaller ones stay
below by half. So the sum of the smaller ones can decide a tie but nothing else, and the value of a
duration is its exact duration rounded once.

Results:
1. `Grown.separated`: partial sums do not overlap, whatever was pushed.
2. `rounded_value`: a finite value is the exact duration, rounded to nearest, a tie to even.
3. `value_lt_zero_iff`, `isZero_iff`: it has the sign of the exact duration.
4. `value_steps_eq`: equal sums have equal values.
-/

namespace PulseSequencer.Duration

open Binary64

/-! ## Numbers that do not overlap -/

/-- `b` is a multiple of twice the least power of two above `a`. -/
def Below (a b : ℤ) : Prop := 2 ^ (Nat.size a.natAbs + 1) ∣ b

theorem abs_lt_size (a : ℤ) : |a| < 2 ^ Nat.size a.natAbs := by
  rw [Int.abs_eq_natAbs]
  exact_mod_cast Nat.lt_size_self a.natAbs

theorem size_le {a : ℤ} {t : ℕ} (lt : |a| < 2 ^ t) : Nat.size a.natAbs ≤ t := by
  rw [Nat.size_le]
  rw [Int.abs_eq_natAbs] at lt
  exact_mod_cast lt

theorem Below.dvd {a b : ℤ} (below : Below a b) : 2 ^ Nat.size a.natAbs ∣ b :=
  (two_pow_dvd (Nat.le_succ _)).trans below

theorem Below.abs_lt {a b : ℤ} (below : Below a b) (nonzero : b ≠ 0) : |a| < |b| :=
  (abs_lt_size a).trans_le (two_pow_le_abs below.dvd nonzero)

theorem Below.dominates {a b : ℤ} (below : Below a b) : Dominates b a := by
  by_cases zero : b = 0
  · exact .inr zero
  · exact .inl (below.abs_lt zero).le

/-- Partial sums of increasing magnitude that do not overlap. Only the last one may be zero. -/
structure Separated (partials : List ℤ) : Prop where
  below : partials.Pairwise Below
  nonzero : ∀ x ∈ partials.dropLast, x ≠ 0

/-- A power of two that divides all terms divides the partial sums as well. -/
theorem dvd_pushPartial {partials : List Binary64} {x : Binary64} {t : ℕ}
    (finite : TopFinite (pushPartial partials x)) (dvd : ∀ y ∈ partials, 2 ^ t ∣ y.steps)
    (dvdX : 2 ^ t ∣ x.steps) : ∀ z ∈ pushPartial partials x, 2 ^ t ∣ z.steps := by
  induction partials generalizing x with
  | nil => simpa [pushPartial] using dvdX
  | cons y rest ih =>
    obtain ⟨dvdY, dvdRest⟩ := List.forall_mem_cons.mp dvd
    obtain ⟨high, low, _, split_, finiteRest, result⟩ := pushPartial_cons_spec finite
    have dvdHigh := split_.rounded.dvd_of_dvd (dvd_add dvdX dvdY)
    have dvdAfter := ih finiteRest dvdRest dvdHigh
    rcases result with ⟨_, same⟩ | ⟨_, same⟩
    · rw [same]
      exact dvdAfter
    · rw [same]
      refine List.forall_mem_cons.mpr ⟨?_, dvdAfter⟩
      rw [split_.error]
      exact dvd_sub (dvd_add dvdX dvdY) dvdHigh

/-- An error lies below the sum that it was split from, and below all that the term was below. -/
theorem below_of_split {x y : ℤ} {high low : Binary64} (representable : Representable x)
    (split_ : Split x y high low) (nonzero : low.steps ≠ 0) :
    Below low.steps high.steps ∧ ∀ z, Below y z → Below low.steps z := by
  have near := split_.rounded.near
  have even := split_.rounded.even
  have smaller := abs_error_le representable split_.rounded
  have positive := abs_pos.mpr nonzero
  rw [← split_.error] at near even smaller
  constructor
  · rcases near.eq_or_lt with tie | less
    · have size : Nat.size low.steps.natAbs ≤ unit (x + y) := size_le (by omega)
      exact (two_pow_dvd (Nat.succ_le_succ size)).trans (even tie)
    · obtain ⟨finer, unit_eq⟩ : ∃ k, unit (x + y) = k + 1 := by
        refine Nat.exists_eq_succ_of_ne_zero fun zero => ?_
        rw [zero] at less
        omega
      rw [unit_eq, pow_succ] at less
      have size : Nat.size low.steps.natAbs ≤ finer := size_le (by omega)
      exact (two_pow_dvd (by omega)).trans split_.rounded.dvd
  · intro z below
    have size := size_le (smaller.trans_lt (abs_lt_size y))
    exact (two_pow_dvd (Nat.succ_le_succ size)).trans below

theorem Separated.push {partials : List Binary64} {x : Binary64}
    (separated : Separated (partials.map steps)) (finite : TopFinite (pushPartial partials x)) :
    Separated ((pushPartial partials x).map steps) := by
  induction partials generalizing x with
  | nil => exact ⟨by simp [pushPartial], by simp [pushPartial]⟩
  | cons y rest ih =>
    obtain ⟨high, low, _, split_, finiteRest, result⟩ := pushPartial_cons_spec finite
    rw [List.map_cons] at separated
    obtain ⟨belowY, pairwise⟩ := List.pairwise_cons.mp separated.below
    have tail : Separated (rest.map steps) := by
      refine ⟨pairwise, fun z present => separated.nonzero z ?_⟩
      cases rest with
      | nil => cases present
      | cons next others => exact List.mem_cons_of_mem _ present
    have after := ih tail finiteRest
    rcases result with ⟨_, same⟩ | ⟨nonzero, same⟩
    · rw [same]
      exact after
    · rw [same, List.map_cons]
      obtain ⟨belowHigh, belowOther⟩ := below_of_split (representable_steps x) split_ nonzero
      refine ⟨List.pairwise_cons.mpr ⟨?_, after.below⟩, ?_⟩
      · intro z present
        obtain ⟨w, inAfter, rfl⟩ := List.mem_map.mp present
        refine dvd_pushPartial finiteRest (fun v inRest => ?_) belowHigh w inAfter
        exact belowOther v.steps (belowY v.steps (List.mem_map_of_mem inRest))
      · rw [List.dropLast_cons_of_ne_nil (by simpa using pushPartial_ne_nil rest high)]
        exact List.forall_mem_cons.mpr ⟨nonzero, after.nonzero⟩

theorem below_neg {a b : ℤ} (below : Below a b) : Below (-a) (-b) := by
  unfold Below
  rw [Int.natAbs_neg]
  exact (dvd_neg).mpr below

/-- Finite partial sums do not overlap. -/
theorem Grown.separated {partials : List Binary64} (grown : Grown partials)
    (finite : AllFinite partials) : Separated (partials.map steps) := by
  induction grown with
  | nil => exact ⟨by simp, by simp⟩
  | push x _ ih => exact (ih (pushPartial_spec finite.top).1).push finite.top
  | @neg partials _ ih =>
    have same : (partials.map Binary64.neg).map steps = (partials.map steps).map (- ·) := by
      rw [List.map_map, List.map_map]
      exact List.map_congr_left fun x _ => steps_neg x
    have inner := ih fun x present => by
      have := finite x.neg (List.mem_map_of_mem present)
      rwa [show x.neg = -x from rfl, isFinite_neg] at this
    rw [same]
    refine ⟨List.pairwise_map.mpr (inner.below.imp below_neg), ?_⟩
    rw [← List.map_dropLast, List.forall_mem_map]
    exact fun x present => neg_ne_zero.mpr (inner.nonzero x present)

/-! ## Sums of smaller partial sums -/

/-- Terms of decreasing magnitude that do not overlap, none of them zero. -/
structure Stacked (terms : List ℤ) : Prop where
  below : terms.Pairwise fun x y => Below y x
  nonzero : ∀ x ∈ terms, x ≠ 0

theorem Stacked.tail {x : ℤ} {rest : List ℤ} (stacked : Stacked (x :: rest)) : Stacked rest :=
  ⟨(List.pairwise_cons.mp stacked.below).2,
    fun y present => stacked.nonzero y (List.mem_cons_of_mem _ present)⟩

/-- The sum of the magnitudes of terms. -/
def weight (terms : List ℤ) : ℤ := (terms.map fun x => |x|).sum

@[simp] theorem weight_cons (x : ℤ) (rest : List ℤ) : weight (x :: rest) = |x| + weight rest := by
  simp [weight]

theorem abs_sum_le_weight (terms : List ℤ) : |terms.sum| ≤ weight terms := by
  induction terms with
  | nil => simp [weight]
  | cons x rest ih =>
    rw [List.sum_cons, weight_cons]
    exact (abs_add_le x rest.sum).trans (by omega)

/-- The first term is more than twice as large as all later ones together. -/
theorem Stacked.weight_lt {x : ℤ} {rest : List ℤ} (stacked : Stacked (x :: rest)) :
    weight (x :: rest) < 2 ^ Nat.size x.natAbs ∧ 2 * weight rest < |x| := by
  have nonzero := stacked.nonzero x List.mem_cons_self
  induction rest generalizing x with
  | nil =>
    have positive := abs_pos.mpr nonzero
    exact ⟨by simpa [weight] using abs_lt_size x, by simpa [weight] using nonzero⟩
  | cons y rest ih =>
    obtain ⟨later, _⟩ := ih stacked.tail (stacked.tail.nonzero y List.mem_cons_self)
    have below : Below y x := (List.pairwise_cons.mp stacked.below).1 y List.mem_cons_self
    have large := two_pow_le_abs below nonzero
    have sizes : Nat.size y.natAbs + 1 ≤ Nat.size x.natAbs := by
      by_contra less
      have := two_pow_le (show Nat.size x.natAbs ≤ Nat.size y.natAbs + 1 by omega)
      have := abs_lt_size x
      omega
    have room := add_two_pow_le ((dvd_abs _ _).mpr below) (two_pow_dvd sizes) (abs_lt_size x)
    rw [pow_succ] at large room
    have positive := two_pow_pos (Nat.size y.natAbs)
    rw [weight_cons x]
    constructor <;> omega

theorem Stacked.sum_lt {x : ℤ} {rest : List ℤ} (stacked : Stacked (x :: rest)) :
    |(x :: rest).sum| < 2 ^ Nat.size x.natAbs ∧ 2 * |rest.sum| < |x| := by
  obtain ⟨all, later⟩ := stacked.weight_lt
  have := abs_sum_le_weight (x :: rest)
  have := abs_sum_le_weight rest
  constructor <;> omega

/-- The sum of terms has the sign of the first one. -/
theorem Stacked.sum_pos_iff {x : ℤ} {rest : List ℤ} (stacked : Stacked (x :: rest)) :
    (0 < (x :: rest).sum ↔ 0 < x) ∧ ((x :: rest).sum < 0 ↔ x < 0) := by
  have outweighed := stacked.sum_lt.2
  have nonzero := stacked.nonzero x List.mem_cons_self
  rw [List.sum_cons]
  rcases abs_cases x with ⟨same, _⟩ | ⟨same, _⟩ <;>
    rcases abs_cases rest.sum with ⟨sameRest, _⟩ | ⟨sameRest, _⟩ <;> omega

/-! ## Rounding once -/

theorem steps_zero : (0 : Binary64).steps = 0 := rfl

theorem lt_zero_iff {x : Binary64} (finite : x.isFinite = true) : x < 0 ↔ x.steps < 0 :=
  lt_iff_steps finite rfl

theorem zero_lt_iff {x : Binary64} (finite : x.isFinite = true) : 0 < x ↔ 0 < x.steps :=
  lt_iff_steps rfl finite

/-- A sum that was rounded, with the error as a number. -/
structure Inexact (n : ℤ) (high low : Binary64) : Prop where
  finiteHigh : high.isFinite = true
  finiteLow : low.isFinite = true
  rounded : Rounded n high.steps
  error : low.steps = n - high.steps
  nonzero : low.steps ≠ 0

namespace Inexact

variable {n : ℤ} {high low : Binary64}

theorem unit_pos (inexact : Inexact n high low) : 0 < unit n := by
  have near := inexact.rounded.near
  have positive := abs_pos.mpr inexact.nonzero
  rw [← inexact.error] at near
  by_contra zero
  rw [show unit n = 0 by omega] at near
  omega

theorem two_pow_le_abs (inexact : Inexact n high low) : 2 ^ (52 + unit n) ≤ |high.steps| :=
  inexact.rounded.le_abs (representable_two_pow _) (two_pow_le_of_unit_pos inexact.unit_pos)

theorem lt_overflow (inexact : Inexact n high low) : 52 + unit n < overflow := by
  by_contra le
  have := two_pow_le (not_lt.mp le)
  have := inexact.two_pow_le_abs
  have := abs_steps_lt high
  omega

/-- The double of an error is met exactly. -/
theorem double (inexact : Inexact n high low) :
    (low * 2).isFinite = true ∧ (low * 2).steps = 2 * low.steps := by
  have whole : IsWhole 2 (2 : Binary64) := isWhole_ofNat (show 2 < 2 ^ 53 by norm_num)
  have product := mul_nearestTo inexact.finiteLow whole
  rw [mul_comm] at product
  refine product.eq_of_representable (representable_steps low).double ?_
  have near := inexact.rounded.near
  rw [← inexact.error] at near
  rw [abs_mul, abs_two]
  exact near.trans_lt (two_pow_lt (by have := inexact.lt_overflow; omega))

/-- A tie was rounded to even, so its neighbour on the other side has not overflown. -/
theorem moved (inexact : Inexact n high low) (tie : 2 * |low.steps| = 2 ^ unit n)
    {r : ℤ} (rounded : Rounded r (high.steps + 2 * low.steps)) :
    (high + low * 2).isFinite = true ∧ (high + low * 2).steps = high.steps + 2 * low.steps := by
  obtain ⟨finiteDouble, sameDouble⟩ := inexact.double
  have sum := add_nearestTo inexact.finiteHigh finiteDouble
  rw [sameDouble] at sum
  refine sum.eq_of_representable rounded.representable ?_
  have even := inexact.rounded.even (by rw [← inexact.error]; exact tie)
  have room := add_two_pow_le ((dvd_abs _ _).mpr even)
    (two_pow_dvd (show unit n + 1 ≤ overflow by have := inexact.lt_overflow; omega))
    (abs_steps_lt high)
  have triangle := abs_add_le high.steps (2 * low.steps)
  have positive := two_pow_pos (unit n)
  rw [abs_mul, abs_two] at triangle
  rw [pow_succ] at room
  omega

/-- The sum moved by the double of its error is still at least as large as the least number of its
spacing. -/
theorem le_abs_moved (inexact : Inexact n high low) :
    2 ^ (52 + unit n) ≤ |high.steps + 2 * low.steps| := by
  have near := inexact.rounded.near
  have error := inexact.error
  have large := two_pow_le_of_unit_pos inexact.unit_pos
  have wide := two_pow_lt (show unit n < 52 + unit n by omega)
  have multiple : |high.steps| = 2 ^ (52 + unit n) ∨
      2 ^ (52 + unit n) + 2 ^ unit n ≤ |high.steps| := by
    rcases inexact.two_pow_le_abs.eq_or_lt with same | less
    · exact .inl same.symm
    · exact .inr (add_two_pow_le (two_pow_dvd (by omega))
        ((dvd_abs _ _).mpr inexact.rounded.dvd) less)
  rw [← error] at near
  generalize (2 : ℤ) ^ (52 + unit n) = least at *
  generalize (2 : ℤ) ^ unit n = step at *
  rcases abs_cases high.steps with ⟨sameHigh, _⟩ | ⟨sameHigh, _⟩ <;>
    rcases abs_cases low.steps with ⟨sameLow, _⟩ | ⟨sameLow, _⟩ <;>
    rcases abs_cases n with ⟨same, _⟩ | ⟨same, _⟩ <;>
    rcases abs_cases (high.steps + 2 * low.steps) with ⟨sameSum, _⟩ | ⟨sameSum, _⟩ <;> omega

/-- The double of an error is less than a step there unless it was a tie, so moving the sum by it
is not exact. -/
theorem not_moved (inexact : Inexact n high low) (notTie : 2 * |low.steps| ≠ 2 ^ unit n) :
    (low * 2).numEq (high + low * 2 - high) = false := by
  by_contra equal
  rw [Bool.not_eq_false, numEq_iff] at equal
  obtain ⟨_, same⟩ := equal
  obtain ⟨finiteDouble, sameDouble⟩ := inexact.double
  have finiteDifference : (high + low * 2 - high).isFinite = true := by
    rcases same with same | ⟨_, zero⟩
    · rw [← same]
      exact finiteDouble
    · obtain ⟨negative, zero⟩ := eq_signedZero_of_isZero zero
      rw [zero]
      rfl
  obtain ⟨finiteMoved, _⟩ := isFinite_of_sub finiteDifference
  have sum := (add_nearestTo inexact.finiteHigh finiteDouble).rounded finiteMoved
  have difference := (sub_nearestTo finiteMoved inexact.finiteHigh).rounded finiteDifference
  rw [← (sameNumber_iff_steps finiteDouble finiteDifference).mp same, sameDouble] at difference
  rw [sameDouble] at sum
  have near := inexact.rounded.near
  rw [← inexact.error] at near
  -- The sum lies in the binade of `n`, where numbers are `2 ^ unit n` steps apart.
  have coarse : unit n ≤ unit (high.steps + 2 * low.steps) :=
    le_unit inexact.le_abs_moved
  have dvd : 2 ^ unit n ∣ 2 * low.steps := difference.dvd_of_dvd
    (dvd_sub ((two_pow_dvd coarse).trans sum.dvd) inexact.rounded.dvd)
  have large := Binary64.two_pow_le_abs dvd (by have := inexact.nonzero; omega)
  rw [abs_mul, abs_two] at large
  omega

end Inexact

/-- The correction of a rounded sum accounts for all smaller terms. -/
theorem nudge_spec {n : ℤ} {high low : Binary64} {rest : List Binary64}
    (inexact : Inexact n high low) (finite : AllFinite rest) (stacked : Stacked (rest.map steps))
    (below : ∀ y ∈ rest, Below y.steps n) :
    Rounded (n + sumSteps rest) (nudge high low rest).steps := by
  cases rest with
  | nil => simpa [nudge] using inexact.rounded
  | cons next others =>
    have small : |sumSteps (next :: others)| < 2 ^ Nat.size next.steps.natAbs := stacked.sum_lt.1
    have dvd : 2 ^ Nat.size next.steps.natAbs ∣ n := (below next List.mem_cons_self).dvd
    obtain ⟨positive, negative⟩ := stacked.sum_pos_iff
    have nextNonzero := stacked.nonzero next.steps List.mem_cons_self
    have finiteNext := finite next List.mem_cons_self
    have different : n ≠ high.steps := by
      have := inexact.nonzero
      have := inexact.error
      omega
    have error := inexact.error
    simp only [nudge, lt_zero_iff inexact.finiteLow, lt_zero_iff finiteNext,
      zero_lt_iff inexact.finiteLow, zero_lt_iff finiteNext]
    change 0 < sumSteps (next :: others) ↔ _ at positive
    change sumSteps (next :: others) < 0 ↔ _ at negative
    split
    · next along =>
      by_cases tie : 2 * |low.steps| = 2 ^ unit n
      · have rounded := inexact.rounded.add_of_tie dvd small different (error ▸ tie) (by omega)
        rw [← error] at rounded
        obtain ⟨finiteMoved, sameMoved⟩ := inexact.moved tie rounded
        obtain ⟨finiteDouble, sameDouble⟩ := inexact.double
        have difference := sub_nearestTo finiteMoved inexact.finiteHigh
        rw [sameMoved, add_sub_cancel_left] at difference
        obtain ⟨finiteDifference, sameDifference⟩ := difference.eq_of_representable
          (representable_steps low).double (sameDouble ▸ abs_steps_lt (low * 2))
        have equal : (low * 2).numEq (high + low * 2 - high) = true := by
          refine numEq_iff.mpr ⟨?_, (sameNumber_iff_steps finiteDouble finiteDifference).mpr ?_⟩
          · intro isNan
            rw [isNan] at finiteDouble
            cases finiteDouble
          · rw [sameDouble, sameDifference]
        rw [if_pos equal, sameMoved]
        exact rounded
      · rw [if_neg (by rw [inexact.not_moved tie]; exact Bool.false_ne_true)]
        exact inexact.rounded.add_of_not_tie dvd small different (error ▸ tie)
    · next notAlong =>
      have := inexact.nonzero
      exact inexact.rounded.add_of_opposite dvd small different (by omega)

theorem roundFrom_spec {high : Binary64} {rest : List Binary64}
    (finite : (roundFrom high rest).isFinite = true) (finiteRest : AllFinite rest)
    (stacked : Stacked (rest.map steps)) (below : ∀ y ∈ rest, Below y.steps high.steps) :
    Rounded (high.steps + sumSteps rest) (roundFrom high rest).steps := by
  induction rest generalizing high with
  | nil =>
    rw [sumSteps_nil, add_zero]
    have rounded := rounded_nearest high.steps
    rwa [rounded.eq_self (representable_steps high)] at rounded
  | cons y rest ih =>
    obtain ⟨finiteY, finiteOthers⟩ := List.forall_mem_cons.mp finiteRest
    obtain ⟨belowY, belowOthers⟩ := List.forall_mem_cons.mp below
    rw [List.map_cons] at stacked
    have belowFirst := (List.pairwise_cons.mp stacked.below).1
    -- Whatever lies below both terms lies below their sum.
    have belowSum : ∀ z ∈ rest, Below z.steps (high.steps + y.steps) := fun z present =>
      dvd_add (belowOthers z present) (belowFirst z.steps (List.mem_map_of_mem present))
    have finiteHigh := isFinite_of_roundFrom finite
    rw [roundFrom_cons] at finite ⊢
    have finiteSum : (high + y).isFinite = true := by
      split at finite
      · exact isFinite_of_roundFrom finite
      · exact isFinite_of_nudge finite
    have split_ := fastTwoSum_spec finiteHigh finiteY belowY.dominates finiteSum
    have zero := isZero_iff_steps split_.finite
    rw [sumSteps_cons, ← add_assoc]
    by_cases isZero : (fastTwoSum high y).2.isZero = true
    · rw [if_pos isZero] at finite ⊢
      have same : (high + y).steps = high.steps + y.steps := by
        have error := split_.error
        rw [zero.mp isZero] at error
        show (fastTwoSum high y).1.steps = _
        omega
      rw [← same]
      exact ih finite finiteOthers stacked.tail (by rw [same]; exact belowSum)
    · rw [if_neg isZero]
      exact nudge_spec ⟨finiteSum, split_.finite, split_.rounded, split_.error, mt zero.mpr isZero⟩
        finiteOthers stacked.tail belowSum

/-- The partial sums of a duration as they are read: the largest one first. -/
structure Read (d : Duration) (top : Binary64) (rest : List Binary64) : Prop where
  reversed : d.partials.reverse = top :: rest
  finiteTop : top.isFinite = true
  finiteRest : AllFinite rest
  stacked : Stacked (rest.map steps)
  below : ∀ y ∈ rest, Below y.steps top.steps
  sum : d.exactSteps = top.steps + sumSteps rest

/-- Finite partial sums are read from the largest one down, without an overlap. -/
theorem Finite.read {d : Duration} (finite : d.Finite) :
    d.partials = [] ∨ ∃ top rest, Read d top rest := by
  have separated := d.grown.separated finite
  cases found : d.partials.reverse with
  | nil => exact .inl (List.reverse_eq_nil_iff.mp found)
  | cons top rest =>
    have partials : d.partials = rest.reverse ++ [top] := by
      rw [← List.reverse_reverse d.partials, found, List.reverse_cons]
    rw [Finite, partials] at finite
    rw [partials, List.map_append] at separated
    obtain ⟨below, _, belowTop⟩ := List.pairwise_append.mp separated.below
    refine .inr ⟨top, rest, found, finite top (by simp), ?_, ⟨?_, ?_⟩, ?_, ?_⟩
    · exact fun x present => finite x (by simp [present])
    · rw [List.map_reverse, List.pairwise_reverse] at below
      exact below
    · intro x present
      refine separated.nonzero x ?_
      rw [List.map_cons, List.map_nil, List.dropLast_concat, List.map_reverse, List.mem_reverse]
      exact present
    · intro y present
      exact belowTop y.steps (List.mem_map_of_mem (List.mem_reverse.mpr present)) top.steps
        (by simp)
    · rw [exactSteps, partials, sumSteps, List.map_append, List.sum_append, List.map_reverse,
        List.sum_reverse]
      simp [sumSteps, add_comm]

theorem Read.value_eq {d : Duration} {top : Binary64} {rest : List Binary64}
    (read : Read d top rest) : d.value = roundFrom top rest := by
  rw [value, read.reversed]

/-- A finite value is the exact duration, rounded once. -/
theorem rounded_value {d : Duration} (finite : d.value.isFinite = true) :
    Rounded d.exactSteps d.value.steps := by
  obtain empty | ⟨top, rest, read⟩ := (finite_of_value finite).read
  · rw [exactSteps, value, empty]
    exact rounded_nearest 0
  · rw [read.value_eq] at finite ⊢
    rw [read.sum]
    exact roundFrom_spec finite read.finiteRest read.stacked read.below

/-! ## The sign of a duration -/

theorem value_lt_zero_iff {d : Duration} (finite : d.value.isFinite = true) :
    d.value < 0 ↔ d.exactSteps < 0 :=
  (lt_zero_iff finite).trans (rounded_value finite).neg_iff

theorem zero_le_value_iff {d : Duration} (finite : d.value.isFinite = true) :
    0 ≤ d.value ↔ 0 ≤ d.exactSteps := by
  rw [le_iff_steps rfl finite, steps_zero, ← not_lt, (rounded_value finite).neg_iff, not_lt]

theorem isZero_iff {d : Duration} (finite : d.value.isFinite = true) :
    d.isZero = true ↔ d.exactSteps = 0 :=
  (isZero_iff_steps finite).trans (rounded_value finite).eq_zero_iff

/-- The value depends on the exact duration only, not on the partial sums that hold it. -/
theorem value_steps_eq {d e : Duration} (finiteD : d.value.isFinite = true)
    (finiteE : e.value.isFinite = true) (same : d.exactSteps = e.exactSteps) :
    d.value.steps = e.value.steps := by
  have rounded := rounded_value finiteD
  rw [same] at rounded
  exact rounded.unique (rounded_value finiteE)

theorem beq_of_exactSteps {d e : Duration} (finiteD : d.value.isFinite = true)
    (finiteE : e.value.isFinite = true) (same : d.exactSteps = e.exactSteps) :
    (d == e) = true := by
  refine numEq_iff.mpr ⟨fun isNan => ?_, ?_⟩
  · rw [isNan] at finiteD
    cases finiteD
  · exact (sameNumber_iff_steps finiteD finiteE).mpr (value_steps_eq finiteD finiteE same)

end PulseSequencer.Duration

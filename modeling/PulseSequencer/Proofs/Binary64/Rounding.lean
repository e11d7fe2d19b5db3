import Mathlib.Algebra.Order.Ring.Abs
import Mathlib.Algebra.Order.Ring.Int
import Mathlib.Tactic.Linarith
import Mathlib.Tactic.Ring
import PulseSequencer.Binary64.Arithmetic

/-!
# Rounding whole numbers to 53 bits

Finite binary64 numbers are whole numbers of steps, so their arithmetic is arithmetic of whole
numbers followed by rounding. Here the exponent is unbounded: overflow is a matter of the numbers,
not of rounding.

Results:
1. `Rounded.unique`, `rounded_nearest`: rounding to nearest, a tie to even, has exactly one result.
2. `Rounded.representable`, `Rounded.eq_self`, `Rounded.le_distance`: the result is representable,
   it is the number itself if that is representable, and no representable number is nearer.
3. `representable_error`, `representable_difference`: the rounding error of a sum is representable,
   and so is the part of the smaller term that went into the sum. These are what a sum without
   rounding is made of.
4. `representable_product_error`: so is the rounding error of a product with a number of 32 bits.
5. `Rounded.add_of_not_tie`, `Rounded.add_of_opposite`, `Rounded.add_of_tie`: a remainder below the
   last bit changes a rounding only if that was a tie and the remainder is on the side of the error.
-/

namespace PulseSequencer.Binary64

/-! ## Powers of two -/

theorem two_pow_pos (k : ℕ) : (0 : ℤ) < 2 ^ k := by positivity

theorem two_pow_dvd {j k : ℕ} (le : j ≤ k) : (2 : ℤ) ^ j ∣ 2 ^ k := pow_dvd_pow 2 le

theorem two_pow_le {j k : ℕ} (le : j ≤ k) : (2 : ℤ) ^ j ≤ 2 ^ k :=
  pow_le_pow_right₀ (by norm_num) le

theorem two_pow_lt {j k : ℕ} (lt : j < k) : (2 : ℤ) ^ j < 2 ^ k :=
  pow_lt_pow_right₀ (by norm_num) lt

theorem two_pow_le_abs {k : ℕ} {n : ℤ} (dvd : 2 ^ k ∣ n) (nonzero : n ≠ 0) : 2 ^ k ≤ |n| :=
  Int.le_of_dvd (abs_pos.mpr nonzero) ((dvd_abs _ _).mpr dvd)

/-- Of two multiples of a power of two, the smaller one is smaller by that power at least. -/
theorem add_two_pow_le {k : ℕ} {a b : ℤ} (dvdA : 2 ^ k ∣ a) (dvdB : 2 ^ k ∣ b) (lt : a < b) :
    a + 2 ^ k ≤ b := by
  have := Int.le_of_dvd (by omega) (dvd_sub dvdB dvdA)
  omega

/-! ## Spacing -/

/-- The numbers next to `n` steps lie `2 ^ unit n` steps apart. -/
def unit (n : ℤ) : ℕ := Nat.log2 n.natAbs - 52

@[simp] theorem unit_neg (n : ℤ) : unit (-n) = unit n := by
  rw [unit, unit, Int.natAbs_neg]

theorem abs_lt_unit (n : ℤ) : |n| < 2 ^ (53 + unit n) := by
  have below := @Nat.lt_log2_self n.natAbs
  have le : 2 ^ (Nat.log2 n.natAbs + 1) ≤ 2 ^ (53 + unit n) :=
    Nat.pow_le_pow_right (by omega) (by unfold unit; omega)
  rw [Int.abs_eq_natAbs]
  exact_mod_cast below.trans_le le

theorem unit_le {k : ℕ} {n : ℤ} (lt : |n| < 2 ^ (53 + k)) : unit n ≤ k := by
  unfold unit
  by_cases zero : n.natAbs = 0
  · rw [zero]
    simp
  · have : n.natAbs < 2 ^ (53 + k) := by
      rw [Int.abs_eq_natAbs] at lt
      exact_mod_cast lt
    have := (Nat.log2_lt zero).mpr this
    omega

theorem le_unit {k : ℕ} {n : ℤ} (le : 2 ^ (52 + k) ≤ |n|) : k ≤ unit n := by
  by_contra lt
  have := (abs_lt_unit n).trans_le (two_pow_le (show 53 + unit n ≤ 52 + k by omega))
  omega

/-- Where numbers are more than a step apart, all 53 bits are in use. -/
theorem two_pow_le_of_unit_pos {n : ℤ} (positive : 0 < unit n) : 2 ^ (52 + unit n) ≤ |n| := by
  by_contra lt
  have := unit_le (k := unit n - 1) (n := n)
    (by rw [show 53 + (unit n - 1) = 52 + unit n by omega]; omega)
  omega

theorem unit_mono {a b : ℤ} (le : |a| ≤ |b|) : unit a ≤ unit b :=
  unit_le (le.trans_lt (abs_lt_unit b))

/-! ## Representable numbers -/

/-- A whole number of steps that fits 53 bits. -/
def Representable (n : ℤ) : Prop := 2 ^ unit n ∣ n

theorem Representable.neg {n : ℤ} (representable : Representable n) : Representable (-n) := by
  unfold Representable
  rw [unit_neg]
  exact (dvd_neg).mpr representable

theorem representable_zero : Representable 0 := dvd_zero _

theorem representable_of_dvd {k : ℕ} {n : ℤ} (dvd : 2 ^ k ∣ n) (le : |n| ≤ 2 ^ (53 + k)) :
    Representable n := by
  rcases le.lt_or_eq with lt | eq
  · exact (two_pow_dvd (unit_le lt)).trans dvd
  · have small : unit n ≤ k + 1 := unit_le (eq ▸ two_pow_lt (by omega))
    have power : (2 : ℤ) ^ (k + 1) ∣ |n| := eq ▸ two_pow_dvd (by omega)
    exact (two_pow_dvd small).trans ((dvd_abs _ _).mp power)

theorem representable_two_pow (k : ℕ) : Representable (2 ^ k) :=
  representable_of_dvd (dvd_refl _) (by
    rw [abs_of_pos (two_pow_pos _)]
    exact two_pow_le (by omega))

theorem Representable.mul_two_pow {n : ℤ} (representable : Representable n) (j : ℕ) :
    Representable (2 ^ j * n) := by
  refine representable_of_dvd (k := unit n + j) ?_ ?_
  · rw [pow_add, mul_comm]
    exact mul_dvd_mul_left _ representable
  · rw [abs_mul, abs_of_pos (two_pow_pos j), ← add_assoc, pow_add _ _ j, mul_comm]
    exact mul_le_mul_of_nonneg_right (abs_lt_unit n).le (two_pow_pos j).le

theorem Representable.double {n : ℤ} (representable : Representable n) :
    Representable (2 * n) := representable.mul_two_pow 1

/-- Of two numbers, the smaller one is smaller by a unit of its last place at least. -/
theorem Representable.mul_le_of_lt {a b : ℤ} (representableA : Representable a)
    (representableB : Representable b) (positive : 0 < a) (lt : a < b) :
    2 ^ 53 * a ≤ (2 ^ 53 - 1) * b := by
  have units : unit a ≤ unit b := unit_mono (by
    rw [abs_of_pos positive, abs_of_pos (positive.trans lt)]
    exact lt.le)
  have below : a < 2 ^ (53 + unit a) := by
    have := abs_lt_unit a
    rwa [abs_of_pos positive] at this
  have room := add_two_pow_le representableA (two_pow_dvd (by omega)) below
  have gap := add_two_pow_le representableA ((two_pow_dvd units).trans representableB) lt
  rw [pow_add] at room
  omega

/-! ## Rounding -/

/-- `r` is `n` rounded to the nearest representable number, a tie to the even one. -/
structure Rounded (n r : ℤ) : Prop where
  dvd : 2 ^ unit n ∣ r
  near : 2 * |n - r| ≤ 2 ^ unit n
  even : 2 * |n - r| = 2 ^ unit n → 2 ^ (unit n + 1) ∣ r

namespace Rounded

variable {n r : ℤ}

theorem unique {r' : ℤ} (first : Rounded n r) (second : Rounded n r') : r = r' := by
  by_contra different
  have nonzero : r - r' ≠ 0 := sub_ne_zero.mpr different
  have far := two_pow_le_abs (dvd_sub first.dvd second.dvd) nonzero
  have triangle : |r - r'| ≤ |n - r| + |n - r'| := by
    have := abs_sub_le r n r'
    rwa [abs_sub_comm r n] at this
  have nearFirst := first.near
  have nearSecond := second.near
  -- Two different results would both be ties, with an even neighbour between them.
  have apart := two_pow_le_abs
    (dvd_sub (first.even (by omega)) (second.even (by omega))) nonzero
  have := two_pow_pos (unit n)
  rw [pow_succ] at apart
  omega

theorem neg (rounded : Rounded n r) : Rounded (-n) (-r) := by
  have distance : |(-n) - (-r)| = |n - r| := by
    rw [neg_sub_neg, abs_sub_comm]
  refine ⟨?_, ?_, ?_⟩
  · rw [unit_neg]
    exact (dvd_neg).mpr rounded.dvd
  · rw [unit_neg, distance]
    exact rounded.near
  · rw [unit_neg, distance]
    exact fun tie => (dvd_neg).mpr (rounded.even tie)

theorem eq_self (rounded : Rounded n r) (representable : Representable n) : r = n := by
  by_contra different
  have far := two_pow_le_abs (dvd_sub representable rounded.dvd)
    (sub_ne_zero.mpr (Ne.symm different))
  have := rounded.near
  have := two_pow_pos (unit n)
  omega

/-- A power of two that divides a number divides the rounded number as well. -/
theorem dvd_of_dvd (rounded : Rounded n r) {k : ℕ} (dvd : 2 ^ k ∣ n) : 2 ^ k ∣ r := by
  rcases Nat.le_total k (unit n) with le | le
  · exact (two_pow_dvd le).trans rounded.dvd
  · rw [rounded.eq_self ((two_pow_dvd le).trans dvd)]
    exact dvd

theorem abs_le (rounded : Rounded n r) : |r| ≤ 2 ^ (53 + unit n) := by
  by_contra larger
  have triangle := abs_sub_abs_le_abs_sub r n
  rw [abs_sub_comm] at triangle
  have := abs_lt_unit n
  have := rounded.near
  have := two_pow_pos (unit n)
  have := add_two_pow_le (two_pow_dvd (show unit n ≤ 53 + unit n by omega))
    ((dvd_abs _ _).mpr rounded.dvd) (lt_of_not_ge larger)
  omega

/-- The error is at most half a unit in the last of 53 bits. -/
theorem two_pow_mul_error_le (rounded : Rounded n r) : 2 ^ 53 * |n - r| ≤ |n| := by
  rcases Nat.eq_zero_or_pos (unit n) with zero | positive
  · have representable : Representable n := by
      rw [Representable, zero, pow_zero]
      exact one_dvd n
    rw [rounded.eq_self representable, sub_self, abs_zero, mul_zero]
    exact abs_nonneg n
  · have near := rounded.near
    have large := two_pow_le_of_unit_pos positive
    rw [pow_add] at large
    omega

theorem representable (rounded : Rounded n r) : Representable r :=
  representable_of_dvd rounded.dvd rounded.abs_le

/-- No multiple of the spacing is nearer than the rounded number. -/
theorem le_distance_of_dvd (rounded : Rounded n r) {m : ℤ} (dvd : 2 ^ unit n ∣ m) :
    |n - r| ≤ |n - m| := by
  by_cases same : m = r
  · rw [same]
  · have apart := two_pow_le_abs (dvd_sub dvd rounded.dvd) (sub_ne_zero.mpr same)
    have triangle : |m - r| ≤ |n - m| + |n - r| := by
      have := abs_sub_le m n r
      rwa [abs_sub_comm m n] at this
    have := rounded.near
    omega

/-- A number of finer spacing is smaller than the least one with the spacing of `n`, which lies
between the two. -/
theorem lt_distance_of_finer (rounded : Rounded n r) {m : ℤ} (finer : unit m < unit n) :
    |n - r| < |n - m| := by
  have large := two_pow_le_of_unit_pos (show 0 < unit n by omega)
  have small : |m| < 2 ^ (52 + unit n) := (abs_lt_unit m).trans_le (two_pow_le (by omega))
  have dvd : (2 : ℤ) ^ unit n ∣ 2 ^ (52 + unit n) := two_pow_dvd (by omega)
  rcases le_total 0 n with positive | negative
  · have between := rounded.le_distance_of_dvd dvd
    rw [abs_of_nonneg positive] at large
    rw [abs_of_nonneg (show (0 : ℤ) ≤ n - 2 ^ (52 + unit n) by omega)] at between
    have := le_abs_self (n - m)
    have := le_abs_self m
    omega
  · have between := rounded.le_distance_of_dvd ((dvd_neg).mpr dvd)
    rw [abs_of_nonpos negative] at large
    rw [abs_of_nonpos (show n - -2 ^ (52 + unit n) ≤ 0 by omega)] at between
    have := neg_abs_le (n - m)
    have := neg_abs_le m
    omega

/-- No representable number is nearer than the rounded number. -/
theorem le_distance (rounded : Rounded n r) {m : ℤ} (representable : Representable m) :
    |n - r| ≤ |n - m| := by
  rcases Nat.lt_or_ge (unit m) (unit n) with finer | coarser
  · exact (rounded.lt_distance_of_finer finer).le
  · exact rounded.le_distance_of_dvd ((two_pow_dvd coarser).trans representable)

/-- If another representable number is as near, both are half a step away. -/
theorem tie_of_eq_distance (rounded : Rounded n r) {m : ℤ} (representable : Representable m)
    (different : m ≠ r) (same : |n - r| = |n - m|) : 2 * |n - r| = 2 ^ unit n := by
  rcases Nat.lt_or_ge (unit m) (unit n) with finer | coarser
  · have := rounded.lt_distance_of_finer finer
    omega
  · have dvd : 2 ^ unit n ∣ m := (two_pow_dvd coarser).trans representable
    have apart := two_pow_le_abs (dvd_sub dvd rounded.dvd) (sub_ne_zero.mpr different)
    have triangle := abs_sub_le m n r
    rw [abs_sub_comm m n] at triangle
    have near := rounded.near
    omega

/-- Rounding does not move a number past a representable one. -/
theorem le_of_le (rounded : Rounded n r) {m : ℤ} (representable : Representable m) (le : m ≤ n) :
    m ≤ r := by
  by_contra past
  have := rounded.le_distance representable
  rw [abs_of_nonneg (show 0 ≤ n - r by omega), abs_of_nonneg (show 0 ≤ n - m by omega)] at this
  omega

theorem ge_of_ge (rounded : Rounded n r) {m : ℤ} (representable : Representable m) (le : n ≤ m) :
    r ≤ m := by
  have := rounded.neg.le_of_le representable.neg (neg_le_neg le)
  omega

theorem le_abs (rounded : Rounded n r) {m : ℤ} (representable : Representable m) (le : m ≤ |n|) :
    m ≤ |r| := by
  rcases abs_cases n with ⟨same, _⟩ | ⟨same, _⟩
  · exact (rounded.le_of_le representable (same ▸ le)).trans (le_abs_self r)
  · have := rounded.neg.le_of_le representable (same ▸ le)
    exact this.trans (neg_le_abs r)

theorem nonneg (rounded : Rounded n r) (le : 0 ≤ n) : 0 ≤ r :=
  rounded.le_of_le representable_zero le

theorem nonpos (rounded : Rounded n r) (le : n ≤ 0) : r ≤ 0 :=
  rounded.ge_of_ge representable_zero le

theorem eq_zero_iff (rounded : Rounded n r) : r = 0 ↔ n = 0 := by
  constructor
  · rintro rfl
    by_contra nonzero
    -- The least step is a representable number that is nearer than zero.
    have one : Representable 1 := representable_of_dvd (k := 0) (one_dvd _) (by norm_num)
    rcases lt_or_gt_of_ne nonzero with negative | positive
    · have := rounded.ge_of_ge one.neg (by omega)
      omega
    · have := rounded.le_of_le one (by omega)
      omega
  · rintro rfl
    exact rounded.eq_self representable_zero

theorem pos_iff (rounded : Rounded n r) : 0 < r ↔ 0 < n := by
  have := rounded.eq_zero_iff
  constructor
  · intro positive
    by_contra le
    have := rounded.nonpos (by omega)
    omega
  · intro positive
    have := rounded.nonneg positive.le
    omega

theorem neg_iff (rounded : Rounded n r) : r < 0 ↔ n < 0 := by
  have := rounded.eq_zero_iff
  have := rounded.pos_iff
  omega

/-- An even multiple of the spacing is rounded to from half a unit below on. -/
theorem lt_even_iff {m : ℤ} {t : ℕ} (rounded : Rounded n r) (even : 2 ∣ m)
    (low : 2 ^ 52 < m) (high : m ≤ 2 ^ 53) : r < m * 2 ^ t ↔ 2 * n < (2 * m - 1) * 2 ^ t := by
  have power := two_pow_pos t
  have representable : ∀ k : ℤ, 2 ^ 52 ≤ k → k ≤ 2 ^ 53 → Representable (k * 2 ^ t) := by
    intro k low high
    refine representable_of_dvd (k := t) (dvd_mul_left _ _) ?_
    rw [abs_of_nonneg (mul_nonneg (by omega) power.le), pow_add]
    exact mul_le_mul_of_nonneg_right high power.le
  have upper := representable m low.le high
  constructor
  · intro less
    by_contra atLeast
    have below : n < m * 2 ^ t := by
      by_contra above
      exact absurd less (not_lt.mpr (rounded.le_of_le upper (not_lt.mp above)))
    have large : (m - 1) * 2 ^ t ≤ n := by linarith
    have units : unit n = t := by
      have wide : 2 ^ 52 * 2 ^ t ≤ (m - 1) * 2 ^ t := mul_le_mul_of_nonneg_right (by omega) power.le
      have narrow : m * 2 ^ t ≤ 2 ^ 53 * 2 ^ t := mul_le_mul_of_nonneg_right high power.le
      rw [← pow_add] at wide narrow
      have size : |n| = n := abs_of_nonneg (by linarith [two_pow_pos (52 + t)])
      exact le_antisymm (unit_le (by rw [size]; linarith)) (le_unit (by rw [size]; linarith))
    have dvd := rounded.dvd
    have near := rounded.near
    have tie := rounded.even
    rw [units] at dvd near tie
    -- Only the odd multiple below is left, and the tie does not go there.
    have next := add_two_pow_le dvd (dvd_mul_left _ _) less
    rw [abs_of_nonneg (by linarith)] at near tie
    have same : r = (m - 1) * 2 ^ t := by linarith
    obtain ⟨k, product⟩ := tie (by linarith)
    rw [same, pow_succ, mul_assoc, mul_comm (2 ^ t)] at product
    have := mul_right_cancel₀ power.ne' product
    omega
  · intro less
    by_contra atLeast
    have atMost := rounded.ge_of_ge upper (show n ≤ m * 2 ^ t by linarith)
    have nearer := rounded.le_distance (representable (m - 1) (by omega) (by omega))
    rw [le_antisymm atMost (not_lt.mp atLeast), abs_of_nonpos (by linarith)] at nearer
    rcases abs_cases (n - (m - 1) * 2 ^ t) with ⟨same, _⟩ | ⟨same, _⟩ <;> rw [same] at nearer <;>
      linarith

end Rounded

/-! ## The rounding function -/

/-- The nearest natural number to a quotient, a tie to the even one. -/
theorem nearestEven_spec (n : ℕ) {d : ℕ} (positive : 0 < d) :
    2 * |(n : ℤ) - (nearestEven n d * d : ℕ)| ≤ d ∧
    (2 * |(n : ℤ) - (nearestEven n d * d : ℕ)| = d → 2 ∣ nearestEven n d) := by
  have split := Nat.div_add_mod n d
  have below := Nat.mod_lt n positive
  have up : (n / d + 1) * d = d * (n / d) + d := by ring
  have down : n / d * d = d * (n / d) := by ring
  unfold nearestEven
  simp only
  split
  · next small =>
    rw [down, abs_of_nonneg (by omega)]
    constructor <;> omega
  · next notSmall =>
    split
    · next large =>
      rw [up, abs_of_nonpos (by omega)]
      constructor <;> omega
    · next tie =>
      rcases Nat.mod_two_eq_zero_or_one (n / d) with even | odd
      · rw [even, Nat.add_zero, down, abs_of_nonneg (by omega)]
        constructor <;> omega
      · rw [odd, up, abs_of_nonpos (by omega)]
        constructor <;> omega

/-- `n` rounded to 53 bits. -/
def nearest (n : ℤ) : ℤ :=
  signed (decide (n < 0)) (nearestEven n.natAbs (2 ^ unit n) * 2 ^ unit n)

theorem rounded_nearest (n : ℤ) : Rounded n (nearest n) := by
  -- Rounding does not look at the sign.
  have natural : ∀ n : ℤ, 0 ≤ n →
      Rounded n (nearestEven n.natAbs (2 ^ unit n) * 2 ^ unit n : ℕ) := by
    intro n positive
    obtain ⟨near, even⟩ := nearestEven_spec n.natAbs (Nat.two_pow_pos (unit n))
    have natAbs : (n.natAbs : ℤ) = n := Int.natAbs_of_nonneg positive
    rw [natAbs] at near even
    push_cast at near even ⊢
    refine ⟨dvd_mul_left _ _, near, fun tie => ?_⟩
    rw [pow_succ, mul_comm]
    exact mul_dvd_mul_right (by exact_mod_cast even tie) _
  unfold nearest
  by_cases negative : n < 0
  · have rounded := (natural (-n) (by omega)).neg
    rw [neg_neg, unit_neg, Int.natAbs_neg] at rounded
    simpa [signed, negative] using rounded
  · simpa [signed, negative] using natural n (by omega)

/-! ## Errors that are numbers -/

section

variable {a b s : ℤ}

/-- The error of a sum is at most as large as either term. -/
theorem abs_error_le (representable : Representable a) (rounded : Rounded (a + b) s) :
    |a + b - s| ≤ |b| := by
  have := rounded.le_distance representable
  rwa [add_sub_cancel_left] at this

theorem representable_error_of_le (representableA : Representable a)
    (representableB : Representable b) (le : unit b ≤ unit a) (rounded : Rounded (a + b) s) :
    Representable (a + b - s) := by
  have dvd : 2 ^ unit b ∣ a + b :=
    dvd_add ((two_pow_dvd le).trans representableA) representableB
  refine representable_of_dvd (dvd_sub dvd (rounded.dvd_of_dvd dvd)) ?_
  exact (abs_error_le representableA rounded).trans (abs_lt_unit b).le

/-- The rounding error of a sum is a number. -/
theorem representable_error (representableA : Representable a) (representableB : Representable b)
    (rounded : Rounded (a + b) s) : Representable (a + b - s) := by
  rcases Nat.le_total (unit b) (unit a) with le | le
  · exact representable_error_of_le representableA representableB le rounded
  · rw [add_comm] at rounded ⊢
    exact representable_error_of_le representableB representableA le rounded

theorem abs_difference_le (a b s : ℤ) : |s - a| ≤ |b| + |a + b - s| := by
  have := abs_sub b (a + b - s)
  rwa [show b - (a + b - s) = s - a by ring] at this

/-- The sum of two numbers is spaced at most one bit more coarsely than the larger one. -/
theorem unit_add_le (le : |b| ≤ |a|) : unit (a + b) ≤ unit a + 1 := by
  refine unit_le ?_
  have := abs_add_le a b
  have := abs_lt_unit a
  rw [show 53 + (unit a + 1) = 53 + unit a + 1 by omega, pow_succ]
  omega

/-- The part of the smaller term that went into a rounded sum is a number. -/
theorem representable_difference (representableA : Representable a)
    (representableB : Representable b) (le : |b| ≤ |a|) (rounded : Rounded (a + b) s) :
    Representable (s - a) := by
  have finer := unit_mono le
  have boundB := abs_lt_unit b
  have triangle := abs_difference_le a b s
  have near := rounded.near
  rcases Nat.lt_or_ge (unit b) (unit (a + b)) with coarser | fine
  · rcases Nat.lt_or_ge (unit a) (unit (a + b)) with carried | low
    · -- The sum carries into the next spacing, one bit beyond that of `a`.
      have one := unit_add_le le
      have dvd : 2 ^ unit a ∣ s - a :=
        dvd_sub ((two_pow_dvd carried.le).trans rounded.dvd) representableA
      refine representable_of_dvd dvd ?_
      rw [show unit (a + b) = unit a + 1 by omega, pow_succ] at near
      have room : |b| + 2 ^ unit a ≤ 2 ^ (53 + unit a) := by
        rcases finer.eq_or_lt with same | finer
        · exact add_two_pow_le ((dvd_abs _ _).mpr (same ▸ representableB))
            (two_pow_dvd (by omega)) (same ▸ boundB)
        · have := two_pow_le (show 53 + unit b ≤ 52 + unit a by omega)
          have := two_pow_le (show unit a ≤ 52 + unit a by omega)
          rw [show 53 + unit a = 52 + unit a + 1 by omega, pow_succ]
          omega
      omega
    · refine representable_of_dvd
        (dvd_sub rounded.dvd ((two_pow_dvd low).trans representableA)) ?_
      have := two_pow_le (show 53 + unit b ≤ 52 + unit (a + b) by omega)
      have := two_pow_le (show unit (a + b) ≤ 52 + unit (a + b) by omega)
      have := two_pow_pos (52 + unit (a + b))
      rw [show 53 + unit (a + b) = 52 + unit (a + b) + 1 by omega, pow_succ]
      omega
  · -- The sum is spaced finely enough to be exact.
    have exact_ : s = a + b := rounded.eq_self <| (two_pow_dvd fine).trans <|
      dvd_add ((two_pow_dvd finer).trans representableA) representableB
    rw [exact_, add_sub_cancel_left]
    exact representableB

/-- The part of the smaller term that went into a rounded sum is at most as large as the larger term
or the sum. -/
theorem abs_difference_le_max (le : |b| ≤ |a|) (rounded : Rounded (a + b) s) :
    |s - a| ≤ max |a| |s| := by
  have natural : ∀ a b s : ℤ, 0 ≤ a → |b| ≤ |a| → Rounded (a + b) s →
      |s - a| ≤ max |a| |s| := by
    intro a b s positive le rounded
    rw [abs_of_nonneg positive] at le ⊢
    have sumNonneg := rounded.nonneg (by have := neg_abs_le b; omega)
    rw [abs_of_nonneg sumNonneg]
    rcases le_total a s with up | down
    · rw [abs_of_nonneg (by omega)]
      omega
    · rw [abs_of_nonpos (by omega)]
      omega
  rcases le_total 0 a with positive | negative
  · exact natural a b s positive le rounded
  · have rounded' := rounded.neg
    rw [neg_add] at rounded'
    have := natural (-a) (-b) (-s) (by omega) (by rwa [abs_neg, abs_neg]) rounded'
    rwa [neg_sub_neg, abs_sub_comm, abs_neg, abs_neg] at this

/-- The rounding error of a product with a number of 32 bits is a number. -/
theorem representable_product_error (representable : Representable a) {k : ℤ}
    (small : |k| < 2 ^ 32) (rounded : Rounded (a * k) s) : Representable (a * k - s) := by
  have dvd : 2 ^ unit a ∣ a * k := Dvd.dvd.mul_right representable k
  have coarse : unit (a * k) ≤ unit a + 32 := by
    refine unit_le ?_
    have := abs_lt_unit a
    rw [abs_mul, show 53 + (unit a + 32) = 53 + unit a + 32 by omega, pow_add]
    exact mul_lt_mul'' this small (abs_nonneg _) (abs_nonneg _)
  refine representable_of_dvd (dvd_sub dvd (rounded.dvd_of_dvd dvd)) ?_
  have := rounded.near
  have := two_pow_le (show unit (a * k) ≤ 53 + unit a by omega)
  have := abs_nonneg (a * k - s)
  omega

end

/-! ## A remainder below the error of a sum -/

section

variable {n h r : ℤ} {t : ℕ}

/-- A number that is not representable keeps its spacing when something below its last bit is
added. -/
theorem unit_add_of_lt (dvd : 2 ^ t ∣ n) (small : |r| < 2 ^ t) (inexact : ¬ Representable n) :
    unit (n + r) = unit n := by
  have finer : t < unit n := by
    by_contra le
    exact inexact ((two_pow_dvd (not_lt.mp le)).trans dvd)
  have large := two_pow_le_of_unit_pos (show 0 < unit n by omega)
  have different : |n| ≠ 2 ^ (52 + unit n) := by
    intro same
    refine inexact (representable_of_dvd (k := unit n) ?_ ?_)
    · rw [← dvd_abs, same]
      exact two_pow_dvd (by omega)
    · rw [same]
      exact two_pow_le (by omega)
  have dvdAbs : 2 ^ t ∣ |n| := (dvd_abs _ _).mpr dvd
  have above := add_two_pow_le (two_pow_dvd (show t ≤ 52 + unit n by omega)) dvdAbs
    (lt_of_le_of_ne large (Ne.symm different))
  have under := add_two_pow_le dvdAbs (two_pow_dvd (show t ≤ 53 + unit n by omega))
    (abs_lt_unit n)
  have triangle := abs_add_le n r
  have reverse := abs_sub_abs_le_abs_sub n (-r)
  rw [abs_neg, sub_neg_eq_add] at reverse
  exact le_antisymm (unit_le (by omega)) (le_unit (by omega))

theorem rounded_of_lt (dvd : 2 ^ unit n ∣ h) (lt : 2 * |n - h| < 2 ^ unit n) : Rounded n h :=
  ⟨dvd, lt.le, fun tie => absurd tie lt.ne⟩

variable (rounded : Rounded n h) (dvd : 2 ^ t ∣ n) (small : |r| < 2 ^ t) (inexact : n ≠ h)

include rounded dvd inexact in
theorem not_representable_of_error : ¬ Representable n ∧ 2 ^ t ≤ |n - h| :=
  ⟨fun representable => inexact (rounded.eq_self representable).symm,
    two_pow_le_abs (dvd_sub dvd (rounded.dvd_of_dvd dvd)) (sub_ne_zero.mpr inexact)⟩

include rounded dvd small inexact

/-- A remainder does not change a rounding that was no tie. -/
theorem Rounded.add_of_not_tie (notTie : 2 * |n - h| ≠ 2 ^ unit n) : Rounded (n + r) h := by
  obtain ⟨notRepresentable, large⟩ := not_representable_of_error rounded dvd inexact
  have units := unit_add_of_lt dvd small notRepresentable
  have near := rounded.near
  have positive := two_pow_pos t
  have finer : t + 1 ≤ unit n := by
    by_contra le
    exact notRepresentable ((two_pow_dvd (by omega)).trans dvd)
  have dvdTwice : (2 : ℤ) ^ (t + 1) ∣ 2 * |n - h| := by
    rw [pow_succ, mul_comm]
    exact mul_dvd_mul_left _ ((dvd_abs _ _).mpr (dvd_sub dvd (rounded.dvd_of_dvd dvd)))
  have room := add_two_pow_le dvdTwice (two_pow_dvd finer) (lt_of_le_of_ne near notTie)
  have triangle := abs_add_le (n - h) r
  rw [show n - h + r = n + r - h by ring] at triangle
  rw [pow_succ] at room
  refine rounded_of_lt (by rw [units]; exact rounded.dvd) ?_
  rw [units]
  omega

/-- A remainder against the error takes nothing away from a rounding. -/
theorem Rounded.add_of_opposite (opposite : 0 < n - h ∧ r < 0 ∨ n - h < 0 ∧ 0 < r) :
    Rounded (n + r) h := by
  obtain ⟨notRepresentable, large⟩ := not_representable_of_error rounded dvd inexact
  have units := unit_add_of_lt dvd small notRepresentable
  have near := rounded.near
  refine rounded_of_lt (by rw [units]; exact rounded.dvd) ?_
  rw [units, show n + r - h = n - h + r by ring]
  rcases abs_cases (n - h) with ⟨same, _⟩ | ⟨same, _⟩ <;>
    rcases abs_cases r with ⟨sameR, _⟩ | ⟨sameR, _⟩ <;>
    rcases abs_cases (n - h + r) with ⟨sameSum, _⟩ | ⟨sameSum, _⟩ <;> omega

/-- A remainder on the side of the error decides a tie: the number on the other side is nearer. -/
theorem Rounded.add_of_tie (tie : 2 * |n - h| = 2 ^ unit n)
    (along : 0 < n - h ∧ 0 < r ∨ n - h < 0 ∧ r < 0) : Rounded (n + r) (h + 2 * (n - h)) := by
  obtain ⟨notRepresentable, large⟩ := not_representable_of_error rounded dvd inexact
  have units := unit_add_of_lt dvd small notRepresentable
  have dvdTwice : (2 : ℤ) ^ unit n ∣ 2 * (n - h) := by
    rw [← tie, ← abs_two, ← abs_mul, abs_two]
    exact (abs_dvd _ _).mpr (dvd_refl _)
  refine rounded_of_lt (by rw [units]; exact dvd_add rounded.dvd dvdTwice) ?_
  rw [units, show n + r - (h + 2 * (n - h)) = r - (n - h) by ring]
  rcases abs_cases (n - h) with ⟨same, _⟩ | ⟨same, _⟩ <;>
    rcases abs_cases r with ⟨sameR, _⟩ | ⟨sameR, _⟩ <;>
    rcases abs_cases (r - (n - h)) with ⟨sameSum, _⟩ | ⟨sameSum, _⟩ <;> omega

end

end PulseSequencer.Binary64

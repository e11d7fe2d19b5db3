import Mathlib.Algebra.Order.Field.Basic
import PulseSequencer.Proofs.Binary64.Steps

/-!
# Numbers as rationals

The rational number that a finite number denotes, and rounding as a property of it: no finite number
is nearer, and of two that are equally near it is the one with an even mantissa.

Results:
1. `rational_eq`: a number denotes its steps of `2 ^ -1074`.
2. `nearestEven_of_rounded`: a rounded number of steps is the rational rounded to nearest, a tie to
   even.
-/

namespace PulseSequencer.Binary64

/-- The rational number that a finite number denotes. -/
def rational : Binary64 → ℚ
  | .finite negative mantissa exponent _ =>
    (if negative then -1 else 1) * mantissa * 2 ^ exponent / 2 ^ 1074
  | _ => 0

/-- The last bit of the mantissa is zero. -/
def EvenMantissa : Binary64 → Prop
  | .finite _ mantissa _ _ => 2 ∣ mantissa
  | _ => False

/-- `x` is `q` rounded to the nearest finite number, a tie to the one with an even mantissa. -/
structure NearestEven (q : ℚ) (x : Binary64) : Prop where
  finite : x.isFinite = true
  nearest : ∀ y : Binary64, y.isFinite = true → |q - x.rational| ≤ |q - y.rational|
  even : ∀ y : Binary64, y.isFinite = true → y.rational ≠ x.rational →
    |q - x.rational| = |q - y.rational| → x.EvenMantissa

theorem rational_eq (x : Binary64) : x.rational = x.steps / 2 ^ 1074 := by
  cases x with
  | nan => simp [rational, steps]
  | infinite negative => simp [rational, steps]
  | finite negative mantissa exponent canonical =>
    rw [rational, steps, signed_eq_mul, mul_assoc]
    cases negative <;> simp

/-- The exponent of a number is the spacing of the numbers next to it. -/
theorem unit_steps {negative : Bool} {mantissa exponent : ℕ}
    (canonical : Canonical mantissa exponent) :
    unit (steps (.finite negative mantissa exponent canonical)) = exponent := by
  have magnitude : |steps (.finite negative mantissa exponent canonical)|
      = ((mantissa * 2 ^ exponent : ℕ) : ℤ) := abs_signed _ _
  have less : mantissa * 2 ^ exponent < 2 ^ (53 + exponent) := by
    rw [pow_add]
    exact Nat.mul_lt_mul_of_pos_right canonical.1 (Nat.two_pow_pos exponent)
  refine le_antisymm (unit_le (by rw [magnitude]; exact_mod_cast less)) ?_
  rcases canonical.2.2 with least | large
  · omega
  · refine le_unit ?_
    rw [magnitude, pow_add]
    exact_mod_cast Nat.mul_le_mul_right (2 ^ exponent) large

theorem evenMantissa_of_dvd {x : Binary64} (finite : x.isFinite = true)
    (dvd : 2 ^ (unit x.steps + 1) ∣ x.steps) : x.EvenMantissa := by
  cases x with
  | nan => cases finite
  | infinite negative => cases finite
  | finite negative mantissa exponent canonical =>
    rw [unit_steps, ← dvd_abs, steps, abs_signed] at dvd
    have natural : 2 ^ (exponent + 1) ∣ mantissa * 2 ^ exponent := by exact_mod_cast dvd
    rw [pow_succ, mul_comm mantissa] at natural
    exact Nat.dvd_of_mul_dvd_mul_left (Nat.two_pow_pos exponent) natural

/-- A tie is rounded to a multiple of twice the spacing, also where that is a power of two at which
the spacing changes. -/
theorem Rounded.dvd_of_tie {n r : ℤ} (rounded : Rounded n r) (tie : 2 * |n - r| = 2 ^ unit n) :
    2 ^ (unit r + 1) ∣ r := by
  rcases rounded.abs_le.lt_or_eq with less | power
  · exact (two_pow_dvd (Nat.succ_le_succ (unit_le less))).trans (rounded.even tie)
  · have small : unit r ≤ unit n + 1 := unit_le (power ▸ two_pow_lt (by omega))
    rw [← dvd_abs, power]
    exact two_pow_dvd (by omega)

theorem nearestEven_of_rounded {n : ℤ} {x : Binary64} (finite : x.isFinite = true)
    (rounded : Rounded n x.steps) : NearestEven ((n : ℚ) / 2 ^ 1074) x := by
  have scale : (0 : ℚ) < 2 ^ 1074 := by positivity
  have distance : ∀ y : Binary64,
      |(n : ℚ) / 2 ^ 1074 - y.rational| = ((|n - y.steps| : ℤ) : ℚ) / 2 ^ 1074 := by
    intro y
    rw [rational_eq, ← sub_div, abs_div, abs_of_pos scale]
    push_cast
    rfl
  refine ⟨finite, fun y _ => ?_, fun y _ different same => ?_⟩
  · rw [distance, distance, div_le_div_iff_of_pos_right scale]
    exact_mod_cast rounded.le_distance (representable_steps y)
  · rw [distance, distance, div_left_inj' scale.ne'] at same
    have other : y.steps ≠ x.steps := by
      intro equal
      exact different (by rw [rational_eq, rational_eq, equal])
    have tie := rounded.tie_of_eq_distance (representable_steps y) other (by exact_mod_cast same)
    exact evenMantissa_of_dvd finite (rounded.dvd_of_tie tie)

end PulseSequencer.Binary64

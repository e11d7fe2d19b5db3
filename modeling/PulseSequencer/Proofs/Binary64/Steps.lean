import Mathlib.Algebra.Order.Field.Power
import Mathlib.Data.Rat.Cast.Order
import Mathlib.Tactic.FieldSimp
import PulseSequencer.Proofs.Binary64.Equality
import PulseSequencer.Proofs.Binary64.Rounding

/-!
# Numbers as steps

Every finite number is a whole number of steps of `2 ^ -1074`. This module says what the operations
do to steps.

Results:
1. `lt_iff_steps`, `isZero_iff_steps`: finite numbers are ordered as their steps are.
2. `ofSteps_spec`: the number nearest to a whole number of steps, which is finite unless it is too
   large.
3. `steps_add`, `steps_mul`, `steps_fusedMulAdd`: an operation with a finite result computes with
   steps and rounds once. For products one factor is a whole number of seconds.
-/

namespace PulseSequencer.Binary64

/-! ## Steps -/

/-- The steps in a finite number. -/
def steps : Binary64 → ℤ
  | .finite negative mantissa exponent _ => signed negative (mantissa * 2 ^ exponent)
  | _ => 0

theorem signed_eq_mul (negative : Bool) (n : ℕ) :
    signed negative n = (if negative then -1 else 1) * (n : ℤ) := by
  cases negative <;> simp [signed]

theorem abs_signed (negative : Bool) (n : ℕ) : |signed negative n| = n := by
  cases negative <;> simp [signed]

/-- Numbers of this many bits are too large. -/
def overflow : ℕ := 53 + 2045

theorem abs_steps_lt (x : Binary64) : |x.steps| < 2 ^ overflow := by
  cases x with
  | nan => exact two_pow_pos _
  | infinite negative => exact two_pow_pos _
  | finite negative mantissa exponent canonical =>
    have mantissaLt : (mantissa : ℤ) < 2 ^ 53 := by exact_mod_cast canonical.1
    have product := mul_lt_mul_of_pos_right mantissaLt (two_pow_pos exponent)
    rw [← pow_add] at product
    rw [steps, abs_signed]
    push_cast
    exact product.trans_le (two_pow_le (Nat.add_le_add_left canonical.2.1 53))

theorem representable_steps (x : Binary64) : Representable x.steps := by
  cases x with
  | nan => exact representable_zero
  | infinite negative => exact representable_zero
  | finite negative mantissa exponent canonical =>
    refine representable_of_dvd (k := exponent) ?_ ?_
    · rw [steps, signed_eq_mul]
      push_cast
      exact Dvd.dvd.mul_left (dvd_mul_left _ _) _
    · rw [steps, abs_signed, pow_add]
      have := Nat.mul_le_mul_right (2 ^ exponent) canonical.1.le
      exact_mod_cast this

@[simp] theorem steps_neg (x : Binary64) : (-x).steps = -x.steps := by
  cases x with
  | nan => rfl
  | infinite negative => rfl
  | finite negative mantissa exponent canonical =>
    show signed (!negative) _ = -signed negative _
    cases negative <;> simp [signed]

@[simp] theorem isFinite_neg (x : Binary64) : (-x).isFinite = x.isFinite := by
  cases x <;> rfl

theorem steps_abs (x : Binary64) : x.abs.steps = |x.steps| := by
  cases x with
  | nan => rfl
  | infinite negative => rfl
  | finite negative mantissa exponent canonical =>
    rw [steps.eq_1 negative, abs_signed]
    rfl

@[simp] theorem isFinite_abs (x : Binary64) : x.abs.isFinite = x.isFinite := by
  cases x <;> rfl

theorem isZero_iff_steps {x : Binary64} (finite : x.isFinite = true) :
    x.isZero = true ↔ x.steps = 0 := by
  cases x with
  | nan => cases finite
  | infinite negative => cases finite
  | finite negative mantissa exponent canonical =>
    rw [← abs_eq_zero, steps, abs_signed]
    simp [isZero]

/-! ## Order -/

/-- Canonical numbers are ordered as their positions are. -/
theorem position_lt_iff {m n e f : ℕ} (first : Canonical m e) (second : Canonical n f) :
    e <<< 52 + m < f <<< 52 + n ↔ m * 2 ^ e < n * 2 ^ f := by
  have below : ∀ {m n e f : ℕ}, Canonical m e → Canonical n f → e < f → m * 2 ^ e < n * 2 ^ f := by
    intro m n e f first second lt
    have large : 2 ^ 52 ≤ n := by
      obtain ⟨_, _, zero | large⟩ := second
      · omega
      · exact large
    calc m * 2 ^ e < 2 ^ 53 * 2 ^ e :=
          Nat.mul_lt_mul_of_pos_right first.1 (Nat.two_pow_pos _)
      _ = 2 ^ 52 * 2 ^ (e + 1) := by ring
      _ ≤ n * 2 ^ f := Nat.mul_le_mul large (Nat.pow_le_pow_right (by omega) lt)
  rcases Nat.lt_trichotomy e f with lt | rfl | gt
  · have := below first second lt
    unfold Canonical at first second
    omega
  · rw [Nat.mul_lt_mul_right (Nat.two_pow_pos e)]
    omega
  · have := below second first gt
    unfold Canonical at first second
    omega

/-- The sign of a position and of a number of steps. -/
theorem signed_lt_signed {a b : Bool} {m n p q : ℕ} (lt : m < n ↔ p < q) (gt : n < m ↔ q < p)
    (zeroFirst : m = 0 ↔ p = 0) (zeroSecond : n = 0 ↔ q = 0) :
    signed a m < signed b n ↔ signed a p < signed b q := by
  cases a <;> cases b <;> simp only [signed] <;> grind

theorem lt_iff_steps {x y : Binary64} (finiteX : x.isFinite = true) (finiteY : y.isFinite = true) :
    x < y ↔ x.steps < y.steps := by
  cases x with
  | nan => cases finiteX
  | infinite negative => cases finiteX
  | finite a m e canonicalX =>
    cases y with
    | nan => cases finiteY
    | infinite negative => cases finiteY
    | finite b n f canonicalY =>
      show blt _ _ = true ↔ _
      have zero : ∀ {m e : ℕ}, Canonical m e → (e <<< 52 + m = 0 ↔ m * 2 ^ e = 0) := by
        intro m e canonical
        have := Nat.two_pow_pos e
        rw [Nat.mul_eq_zero]
        unfold Canonical at canonical
        omega
      simp only [blt, rank, decide_eq_true_eq, steps]
      exact signed_lt_signed (position_lt_iff canonicalX canonicalY)
        (position_lt_iff canonicalY canonicalX) (zero canonicalX) (zero canonicalY)

theorem le_iff_steps {x y : Binary64} (finiteX : x.isFinite = true) (finiteY : y.isFinite = true) :
    x ≤ y ↔ x.steps ≤ y.steps := by
  have notLt : x ≤ y ↔ ¬ y < x := by
    show ble x y = true ↔ ¬ blt y x = true
    cases x with
    | nan => cases finiteX
    | infinite negative => cases finiteX
    | finite a m e canonicalX =>
      cases y with
      | nan => cases finiteY
      | infinite negative => cases finiteY
      | finite b n f canonicalY =>
        simp only [ble, blt, rank, decide_eq_true_eq]
        exact not_lt.symm
  rw [notLt, lt_iff_steps finiteY finiteX, not_lt]

/-- Equal numbers of steps make the same number. -/
theorem sameNumber_iff_steps {x y : Binary64} (finiteX : x.isFinite = true)
    (finiteY : y.isFinite = true) : SameNumber x y ↔ x.steps = y.steps := by
  constructor
  · rintro (rfl | ⟨zeroX, zeroY⟩)
    · rfl
    · rw [(isZero_iff_steps finiteX).mp zeroX, (isZero_iff_steps finiteY).mp zeroY]
  · intro same
    have notLt := mt (lt_iff_steps finiteX finiteY).mp (not_lt.mpr same.ge)
    have notGt := mt (lt_iff_steps finiteY finiteX).mp (not_lt.mpr same.le)
    change ¬ blt x y = true at notLt
    change ¬ blt y x = true at notGt
    cases x with
    | nan => cases finiteX
    | infinite negative => cases finiteX
    | finite a m e canonicalX =>
      cases y with
      | nan => cases finiteY
      | infinite negative => cases finiteY
      | finite b n f canonicalY =>
        refine sameNumber_of_rank rfl (congrArg some ?_)
        simp only [blt, rank, decide_eq_true_eq] at notLt notGt
        omega

/-! ## Rounding to a number -/

theorem log2_mul_two_pow {n : ℕ} (nonzero : n ≠ 0) (j : ℕ) :
    Nat.log2 (n * 2 ^ j) = Nat.log2 n + j := by
  have positive := Nat.two_pow_pos j
  rw [Nat.log2_eq_iff (by positivity)]
  constructor
  · rw [pow_add]
    exact Nat.mul_le_mul_right _ (Nat.log2_self_le nonzero)
  · rw [show Nat.log2 n + j + 1 = Nat.log2 n + 1 + j by omega, pow_add]
    exact Nat.mul_lt_mul_of_pos_right Nat.lt_log2_self positive

/-- A quotient does not change if both sides are multiplied. -/
theorem nearestEven_mul (n d : ℕ) {c : ℕ} (positive : 0 < c) :
    nearestEven (n * c) (d * c) = nearestEven n d := by
  unfold nearestEven
  rw [Nat.mul_div_mul_right _ _ positive, Nat.mul_mod_mul_right]
  simp only [← Nat.mul_assoc, Nat.mul_lt_mul_right positive]

/-- The number nearest to a whole number of steps. -/
def ofSteps (n : ℤ) : Binary64 := ofRatio (decide (n < 0)) n.natAbs 1 0

theorem ofRatio_up (negative : Bool) (n j : ℕ) :
    ofRatio negative n 1 j = ofRatio negative (n * 2 ^ j) 1 0 := by
  have power := Nat.two_pow_pos j
  by_cases zero : n = 0
  · simp [ofRatio, zero]
  · have nonzero : n * 2 ^ j ≠ 0 := by positivity
    simp only [ofRatio, if_neg zero, if_neg nonzero, Nat.div_one, log2_mul_two_pow zero j,
      Nat.shiftLeft_eq, one_mul]
    generalize target : ((j : ℤ) + (Nat.log2 n : ℕ) - 52).toNat = t
    have target' : ((0 : ℤ) + (Nat.log2 n + j : ℕ) - 52).toNat = t := by
      rw [← target]
      congr 1
      push_cast
      ring
    rw [target']
    congr 1
    rcases Nat.le_total t j with le | le
    · rw [show ((j : ℤ) - t).toNat = j - t by omega, show ((t : ℤ) - j).toNat = 0 by omega,
        show ((0 : ℤ) - t).toNat = 0 by omega, show ((t : ℤ) - 0).toNat = t by omega, pow_zero,
        mul_one, ← nearestEven_mul _ _ (Nat.two_pow_pos t), mul_assoc, ← pow_add, one_mul,
        Nat.sub_add_cancel le]
    · rw [show ((j : ℤ) - t).toNat = 0 by omega, show ((t : ℤ) - j).toNat = t - j by omega,
        show ((0 : ℤ) - t).toNat = 0 by omega, show ((t : ℤ) - 0).toNat = t by omega, pow_zero,
        mul_one, mul_one, ← nearestEven_mul _ _ power, ← pow_add, Nat.sub_add_cancel le]

theorem ofRatio_down (negative : Bool) (n j : ℕ) :
    ofRatio negative (n * 2 ^ j) 1 (-j) = ofRatio negative n 1 0 := by
  have power := Nat.two_pow_pos j
  by_cases zero : n = 0
  · simp [ofRatio, zero]
  · have nonzero : n * 2 ^ j ≠ 0 := by positivity
    simp only [ofRatio, if_neg zero, if_neg nonzero, Nat.div_one, log2_mul_two_pow zero j,
      Nat.shiftLeft_eq, one_mul]
    generalize target : ((0 : ℤ) + (Nat.log2 n : ℕ) - 52).toNat = t
    have target' : (-(j : ℤ) + (Nat.log2 n + j : ℕ) - 52).toNat = t := by
      rw [← target]
      congr 1
      push_cast
      ring
    rw [target']
    congr 1
    rw [show (-(j : ℤ) - t).toNat = 0 by omega, show ((t : ℤ) - -j).toNat = t + j by omega,
      show ((0 : ℤ) - t).toNat = 0 by omega, show ((t : ℤ) - 0).toNat = t by omega, pow_zero,
      mul_one, mul_one, pow_add, nearestEven_mul _ _ power]

/-- A rounded mantissa makes a finite number, unless it has too many bits. -/
theorem assemble_spec (negative : Bool) {mantissa exponent : ℕ} (small : mantissa ≤ 2 ^ 53)
    (full : exponent = 0 ∨ 2 ^ 52 ≤ mantissa) :
    (assemble negative mantissa exponent).isFinite = true ∧
      (assemble negative mantissa exponent).steps = signed negative (mantissa * 2 ^ exponent) ∨
    (assemble negative mantissa exponent).isFinite = false ∧
      2 ^ overflow ≤ mantissa * 2 ^ exponent := by
  unfold assemble
  split
  · exact .inl ⟨rfl, rfl⟩
  · next notCanonical =>
    split
    · next carried =>
      -- The mantissa was rounded up to the next power of two.
      refine .inl ⟨rfl, ?_⟩
      rw [steps, carried.1]
      congr 1
      rw [Nat.one_shiftLeft, Nat.one_shiftLeft]
      ring
    · next notCarried =>
      refine .inr ⟨rfl, ?_⟩
      have large : mantissa = 2 ^ 53 ∧ 2045 ≤ exponent ∨ 2 ^ 52 ≤ mantissa ∧ 2046 ≤ exponent := by
        unfold Canonical at notCanonical
        omega
      rcases large with ⟨rfl, le⟩ | ⟨le, high⟩
      · rw [← pow_add]
        exact Nat.pow_le_pow_right (by omega) (Nat.add_le_add_left le 53)
      · calc 2 ^ overflow ≤ 2 ^ (52 + exponent) :=
              Nat.pow_le_pow_right (by omega) (show 53 + 2045 ≤ 52 + exponent by omega)
          _ = 2 ^ 52 * 2 ^ exponent := pow_add 2 52 exponent
          _ ≤ mantissa * 2 ^ exponent := Nat.mul_le_mul_right _ le

/-- The mantissa of a rounded number has at most 53 bits, and all of them if it is scaled. -/
theorem nearestEven_bounds (n : ℕ) :
    nearestEven n (2 ^ unit n) ≤ 2 ^ 53 ∧
    (unit n = 0 ∨ 2 ^ 52 ≤ nearestEven n (2 ^ unit n)) := by
  have rounded := rounded_nearest (n : ℤ)
  have nearest_eq : nearest (n : ℤ) = (nearestEven n (2 ^ unit n) * 2 ^ unit n : ℕ) := by
    simp [nearest, signed]
  rw [nearest_eq] at rounded
  constructor
  · have le := rounded.abs_le
    rw [Nat.abs_cast, pow_add] at le
    exact Nat.le_of_mul_le_mul_right (by exact_mod_cast le) (Nat.two_pow_pos (unit n))
  · rcases Nat.eq_zero_or_pos (unit n) with zero | positive
    · exact .inl zero
    · have low := two_pow_le_of_unit_pos positive
      rw [Nat.abs_cast] at low
      have le := rounded.le_of_le (representable_two_pow (52 + unit n)) low
      rw [pow_add] at le
      exact .inr (Nat.le_of_mul_le_mul_right (by exact_mod_cast le) (Nat.two_pow_pos (unit n)))

theorem ofSteps_cases (n : ℤ) :
    (ofSteps n).isFinite = true ∧ (ofSteps n).steps = nearest n ∨
    (ofSteps n).isFinite = false ∧ 2 ^ overflow ≤ |nearest n| := by
  by_cases zero : n = 0
  · subst zero
    exact .inl ⟨rfl, rfl⟩
  · have nonzero : n.natAbs ≠ 0 := by omega
    have units : unit (n.natAbs : ℤ) = unit n := by
      rw [unit, unit, Int.natAbs_natCast]
    have assembled : ofSteps n
        = assemble (decide (n < 0)) (nearestEven n.natAbs (2 ^ unit n)) (unit n) := by
      simp only [ofSteps, ofRatio, if_neg nonzero, Nat.div_one, Nat.shiftLeft_eq, one_mul]
      rw [show ((0 : ℤ) + (Nat.log2 n.natAbs : ℕ) - 52).toNat = unit n by unfold unit; omega,
        show ((0 : ℤ) - (unit n : ℕ)).toNat = 0 by omega,
        show (((unit n : ℕ) : ℤ) - 0).toNat = unit n by omega, pow_zero, mul_one]
    obtain ⟨small, full⟩ := nearestEven_bounds n.natAbs
    rw [units] at small full
    rw [assembled]
    rcases assemble_spec (decide (n < 0)) small full with finite | ⟨infinite, large⟩
    · exact .inl finite
    · refine .inr ⟨infinite, ?_⟩
      rw [nearest, abs_signed]
      exact_mod_cast large

theorem isFinite_ofSteps {n : ℤ} (small : |nearest n| < 2 ^ overflow) :
    (ofSteps n).isFinite = true := by
  rcases ofSteps_cases n with ⟨finite, _⟩ | ⟨_, large⟩
  · exact finite
  · exact absurd small (not_lt.mpr large)

theorem steps_ofSteps {n : ℤ} (finite : (ofSteps n).isFinite = true) :
    (ofSteps n).steps = nearest n := by
  rcases ofSteps_cases n with ⟨_, same⟩ | ⟨infinite, _⟩
  · exact same
  · rw [finite] at infinite
    cases infinite

/-- `z` is the number nearest to `n` steps, where a zero has any sign. -/
def NearestTo (n : ℤ) (z : Binary64) : Prop :=
  n = 0 ∧ z.isZero = true ∨ z = ofSteps n

namespace NearestTo

variable {n : ℤ} {z : Binary64}

theorem isFinite (nearestTo : NearestTo n z) (small : |nearest n| < 2 ^ overflow) :
    z.isFinite = true := by
  rcases nearestTo with ⟨_, zero⟩ | rfl
  · obtain ⟨negative, rfl⟩ := eq_signedZero_of_isZero zero
    rfl
  · exact isFinite_ofSteps small

/-- Steps are rounded once. -/
theorem steps_eq (nearestTo : NearestTo n z) (finite : z.isFinite = true) :
    z.steps = nearest n := by
  rcases nearestTo with ⟨rfl, zero⟩ | rfl
  · rw [(isZero_iff_steps finite).mp zero]
    rfl
  · exact steps_ofSteps finite

theorem rounded (nearestTo : NearestTo n z) (finite : z.isFinite = true) : Rounded n z.steps := by
  rw [nearestTo.steps_eq finite]
  exact rounded_nearest n

/-- A representable number of steps that is not too large is met exactly. -/
theorem eq_of_representable (nearestTo : NearestTo n z) (representable : Representable n)
    (small : |n| < 2 ^ overflow) : z.isFinite = true ∧ z.steps = n := by
  have same := (rounded_nearest n).eq_self representable
  have finite := nearestTo.isFinite (same.symm ▸ small)
  exact ⟨finite, by rw [nearestTo.steps_eq finite, same]⟩

end NearestTo

/-! ## Sums -/

/-- The ratio may be scaled by a power of two. -/
theorem ofRatio_of_value (negative : Bool) {n total : ℕ} {e : ℤ}
    (value : (n : ℚ) * 2 ^ e = total) :
    ofRatio negative n 1 e = ofRatio negative total 1 0 := by
  obtain ⟨j, rfl | rfl⟩ := e.eq_nat_or_neg
  · rw [zpow_natCast] at value
    obtain rfl : n * 2 ^ j = total := by exact_mod_cast value
    exact ofRatio_up negative n j
  · obtain rfl : n = total * 2 ^ j := by
      have power : (2 : ℚ) ^ j ≠ 0 := by positivity
      rw [zpow_neg, zpow_natCast, ← div_eq_mul_inv, div_eq_iff power] at value
      exact_mod_cast value
    exact ofRatio_down negative total j

/-- A term of a sum, shifted to the common exponent. -/
theorem signed_shiftLeft (negative : Bool) (m : ℕ) {e l : ℤ} (le : l ≤ e) :
    (signed negative (m <<< (e - l).toNat) : ℚ) * 2 ^ l = signed negative m * 2 ^ e := by
  have exponent : e = ((e - l).toNat : ℤ) + l := by omega
  have power : (2 : ℚ) ^ e = 2 ^ (e - l).toNat * 2 ^ l := by
    rw [← zpow_natCast, ← zpow_add₀ (by norm_num), ← exponent]
  rw [power, Nat.shiftLeft_eq, signed_eq_mul, signed_eq_mul]
  push_cast
  ring

/-- A sum of two whole numbers of steps is rounded once. -/
theorem ofSum_eq {a b : Bool} {m n : ℕ} {e f x y : ℤ} (valueX : (signed a m : ℚ) * 2 ^ e = x)
    (valueY : (signed b n : ℚ) * 2 ^ f = y) :
    ofSum a m e b n f = if x + y = 0 then signedZero (a && b) else ofSteps (x + y) := by
  unfold ofSum
  simp only
  generalize common : min e f = l
  generalize sum : signed a (m <<< (e - l).toNat) + signed b (n <<< (f - l).toNat) = total
  have value : (total : ℚ) * 2 ^ l = (x + y : ℤ) := by
    rw [← sum]
    push_cast
    rw [add_mul, signed_shiftLeft a m (by omega), signed_shiftLeft b n (by omega), valueX, valueY]
  have power : (0 : ℚ) < 2 ^ l := by positivity
  have zero : total = 0 ↔ x + y = 0 := by
    have same : (total : ℚ) = 0 ↔ ((x + y : ℤ) : ℚ) = 0 := by
      rw [← value, mul_eq_zero_iff_right power.ne']
    exact_mod_cast same
  have negative : total < 0 ↔ x + y < 0 := by
    have same : (total : ℚ) < 0 ↔ ((x + y : ℤ) : ℚ) < 0 := by
      rw [← value]
      exact (mul_neg_iff.trans (by simp [power, power.not_gt])).symm
    exact_mod_cast same
  have magnitude : (total.natAbs : ℚ) * 2 ^ l = (x + y).natAbs := by
    rw [Nat.cast_natAbs, Nat.cast_natAbs, Int.cast_abs, Int.cast_abs, ← value, abs_mul,
      abs_of_pos power]
  by_cases isZero : total = 0
  · rw [if_pos isZero, if_pos (zero.mp isZero)]
  · rw [if_neg isZero, if_neg (mt zero.mpr isZero), ofSteps, ofRatio_of_value _ magnitude]
    simp only [negative]

theorem ofSum_nearestTo {a b : Bool} {m n : ℕ} {e f x y : ℤ}
    (valueX : (signed a m : ℚ) * 2 ^ e = x) (valueY : (signed b n : ℚ) * 2 ^ f = y) :
    NearestTo (x + y) (ofSum a m e b n f) := by
  rw [ofSum_eq valueX valueY]
  split
  · next zero => exact .inl ⟨zero, by cases a <;> cases b <;> rfl⟩
  · exact .inr rfl

theorem steps_value (negative : Bool) {m e : ℕ} (canonical : Canonical m e) :
    (signed negative m : ℚ) * 2 ^ (e : ℤ) = (steps (.finite negative m e canonical) : ℤ) := by
  rw [steps, signed_eq_mul, signed_eq_mul, zpow_natCast]
  push_cast
  ring

theorem add_nearestTo {x y : Binary64} (finiteX : x.isFinite = true) (finiteY : y.isFinite = true) :
    NearestTo (x.steps + y.steps) (x + y) := by
  cases x with
  | nan => cases finiteX
  | infinite negative => cases finiteX
  | finite a m e canonicalX =>
    cases y with
    | nan => cases finiteY
    | infinite negative => cases finiteY
    | finite b n f canonicalY =>
      exact ofSum_nearestTo (steps_value a canonicalX) (steps_value b canonicalY)

theorem sub_nearestTo {x y : Binary64} (finiteX : x.isFinite = true) (finiteY : y.isFinite = true) :
    NearestTo (x.steps - y.steps) (x - y) := by
  have sum := add_nearestTo finiteX ((isFinite_neg y).trans finiteY)
  rwa [steps_neg, ← sub_eq_add_neg] at sum

/-- The terms of a finite sum are finite. -/
theorem isFinite_of_add {x y : Binary64} (finite : (x + y).isFinite = true) :
    x.isFinite = true ∧ y.isFinite = true := by
  change (add x y).isFinite = true at finite
  cases x with
  | nan => cases finite
  | infinite a =>
    cases y with
    | nan => cases finite
    | infinite b =>
      simp only [add] at finite
      split at finite <;> cases finite
    | finite b n f canonicalY => cases finite
  | finite a m e canonicalX =>
    cases y with
    | nan => cases finite
    | infinite b => cases finite
    | finite b n f canonicalY => exact ⟨rfl, rfl⟩

theorem isFinite_of_sub {x y : Binary64} (finite : (x - y).isFinite = true) :
    x.isFinite = true ∧ y.isFinite = true := by
  obtain ⟨finiteX, finiteY⟩ := isFinite_of_add (y := -y) finite
  exact ⟨finiteX, by rwa [isFinite_neg] at finiteY⟩

theorem ofRatio_ne_nan (negative : Bool) (n d : ℕ) (e : ℤ) : ofRatio negative n d e ≠ .nan := by
  intro isNan
  unfold ofRatio at isNan
  split at isNan
  · cases isNan
  · dsimp only at isNan
    unfold assemble at isNan
    split at isNan
    · cases isNan
    · split at isNan <;> cases isNan

theorem add_ne_nan {x y : Binary64} (number : x ≠ .nan) (finite : y.isFinite = true) :
    x + y ≠ .nan := by
  intro isNan
  change add x y = .nan at isNan
  cases y with
  | nan => cases finite
  | infinite negative => cases finite
  | finite b n f canonical =>
    cases x with
    | nan => exact number rfl
    | infinite a => cases isNan
    | finite a m e canonical' =>
      rw [add, ofSum] at isNan
      split at isNan
      · cases isNan
      · exact ofRatio_ne_nan _ _ _ _ isNan

/-! ## Products with whole numbers -/

/-- The number `k` of seconds. -/
def IsWhole (k : ℤ) (y : Binary64) : Prop :=
  y.isFinite = true ∧ y.steps = k * 2 ^ 1074

/-- The product of a number with a whole number of seconds, before rounding. A second has `2 ^ s`
steps. -/
theorem product_value {a b : Bool} {m n e f s : ℕ} {k x : ℤ}
    (valueX : (signed a m : ℚ) * 2 ^ (e : ℤ) = x)
    (valueY : (signed b n : ℚ) * 2 ^ (f : ℤ) = (k * 2 ^ s : ℤ)) :
    (signed (a != b) (m * n) : ℚ) * 2 ^ ((e : ℤ) + f - s) = (x * k : ℤ) := by
  have signs : (signed (a != b) (m * n) : ℚ) = signed a m * signed b n := by
    cases a <;> cases b <;> simp [signed]
  have power : (2 : ℚ) ^ (s : ℤ) ≠ 0 := by positivity
  rw [signs, zpow_sub₀ (by norm_num), zpow_add₀ (by norm_num), ← mul_div_assoc, div_eq_iff power,
    mul_mul_mul_comm, valueX, valueY, zpow_natCast]
  push_cast
  ring

/-- A product that is not zero has the sign of its mantissa. -/
theorem sign_of_value {negative : Bool} {n : ℕ} {e product : ℤ}
    (value : (signed negative n : ℚ) * 2 ^ e = product) (nonzero : product ≠ 0) :
    negative = decide (product < 0) := by
  have power : (0 : ℚ) < 2 ^ e := by positivity
  cases negative with
  | false =>
    have : (0 : ℚ) ≤ product := by
      rw [← value]
      exact mul_nonneg (by simp [signed]) power.le
    have : 0 ≤ product := by exact_mod_cast this
    simpa using this
  | true =>
    have : (product : ℚ) ≤ 0 := by
      rw [← value]
      exact mul_nonpos_of_nonpos_of_nonneg (by simp [signed]) power.le
    have : product ≤ 0 := by exact_mod_cast this
    simp only [true_eq_decide_iff]
    omega

/-- A signed ratio that is a whole number of steps. -/
theorem ofRatio_nearestTo {negative : Bool} {n : ℕ} {e total : ℤ}
    (value : (signed negative n : ℚ) * 2 ^ e = total) :
    NearestTo total (ofRatio negative n 1 e) := by
  have power : (0 : ℚ) < 2 ^ e := by positivity
  have magnitude : (n : ℚ) * 2 ^ e = total.natAbs := by
    rw [Nat.cast_natAbs, Int.cast_abs, ← value, abs_mul, abs_of_pos power, ← Int.cast_abs,
      abs_signed]
    rfl
  rw [ofRatio_of_value negative magnitude]
  by_cases zero : total = 0
  · exact .inl ⟨zero, by rw [zero]; rfl⟩
  · refine .inr ?_
    rw [ofSteps, sign_of_value value zero]

theorem mul_nearestTo {x y : Binary64} {k : ℤ} (finiteX : x.isFinite = true)
    (whole : IsWhole k y) : NearestTo (x.steps * k) (x * y) := by
  obtain ⟨finiteY, stepsY⟩ := whole
  cases x with
  | nan => cases finiteX
  | infinite negative => cases finiteX
  | finite a m e canonicalX =>
    cases y with
    | nan => cases finiteY
    | infinite negative => cases finiteY
    | finite b n f canonicalY =>
      have value := product_value (steps_value a canonicalX) (stepsY ▸ steps_value b canonicalY)
      exact ofRatio_nearestTo value

theorem fusedMulAdd_nearestTo {x y z : Binary64} {k : ℤ} (finiteX : x.isFinite = true)
    (whole : IsWhole k y) (finiteZ : z.isFinite = true) :
    NearestTo (x.steps * k + z.steps) (x.fusedMulAdd y z) := by
  obtain ⟨finiteY, stepsY⟩ := whole
  cases x with
  | nan => cases finiteX
  | infinite negative => cases finiteX
  | finite a m e canonicalX =>
    cases y with
    | nan => cases finiteY
    | infinite negative => cases finiteY
    | finite b n f canonicalY =>
      cases z with
      | nan => cases finiteZ
      | infinite negative => cases finiteZ
      | finite c o g canonicalZ =>
        have product := product_value (steps_value a canonicalX)
          (stepsY ▸ steps_value b canonicalY)
        exact ofSum_nearestTo product (steps_value c canonicalZ)

/-- The factors of a finite product are finite. -/
theorem isFinite_of_mul {x y : Binary64} (finite : (x * y).isFinite = true) :
    x.isFinite = true ∧ y.isFinite = true := by
  change (mul x y).isFinite = true at finite
  cases x with
  | nan => cases finite
  | infinite a =>
    cases y with
    | nan => cases finite
    | infinite b => cases finite
    | finite b n f canonicalY =>
      simp only [mul] at finite
      split at finite <;> cases finite
  | finite a m e canonicalX =>
    cases y with
    | nan => cases finite
    | infinite b =>
      simp only [mul] at finite
      split at finite <;> cases finite
    | finite b n f canonicalY => exact ⟨rfl, rfl⟩

theorem ofSteps_mul_two_pow (n j : ℕ) : ofSteps (n * 2 ^ j) = ofRatio false n 1 j := by
  have positive : ¬ ((n : ℤ) * 2 ^ j < 0) := not_lt.mpr (by positivity)
  rw [ofSteps, decide_eq_false positive, Int.natAbs_mul, Int.natAbs_pow, Int.natAbs_natCast,
    ofRatio_up]
  rfl

/-- Whole numbers of at most 53 bits are numbers of seconds. -/
theorem isWhole_ofNat {n : ℕ} (small : n < 2 ^ 53) : IsWhole n (ofNat n) := by
  have nearestTo : NearestTo (n * 2 ^ 1074) (ofNat n) := .inr (ofSteps_mul_two_pow n 1074).symm
  have magnitude : |(n : ℤ) * 2 ^ 1074| < 2 ^ (53 + 1074) := by
    rw [abs_of_nonneg (by positivity), pow_add]
    exact mul_lt_mul_of_pos_right (by exact_mod_cast small) (two_pow_pos _)
  refine nearestTo.eq_of_representable (representable_of_dvd (dvd_mul_left _ _) magnitude.le) ?_
  exact magnitude.trans_le (two_pow_le (by unfold overflow; omega))

end PulseSequencer.Binary64

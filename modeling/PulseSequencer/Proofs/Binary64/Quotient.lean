import Mathlib.Tactic.LinearCombination
import PulseSequencer.Proofs.Binary64.Steps

/-!
# Quotients

What division makes of two positive numbers, as far as a bound on the quotient goes, and what
becomes of the quotient when it is rounded to a whole number.

Results:
1. `div_le`, `le_div`: a quotient that is on one side of a number is not rounded to the other side.
2. `isWhole_floor`, `isWhole_round`: the whole part of a number, and the nearest whole number to one
   that is not negative.
3. `div_lt_counts`: a quotient below `2 ^ 32` is not rounded up to it.
4. `floor_div_bounds`: the exact quotient is hardly below the whole part of the rounded one, and
   less than one above it.
-/

namespace PulseSequencer.Binary64

/-! ## Rounded ratios -/

theorem nearestEven_le {n d b : ℕ} (positive : 0 < d) (le : n ≤ b * d) : nearestEven n d ≤ b := by
  have quotientLe : n / d ≤ b := Nat.div_le_of_le_mul (by rwa [mul_comm])
  have whole := Nat.div_add_mod n d
  rcases quotientLe.eq_or_lt with same | less
  · -- The ratio is the whole number itself.
    have exactly : n % d = 0 := by
      rw [same, mul_comm] at whole
      omega
    rw [nearestEven, exactly, if_pos (by omega)]
    exact quotientLe
  · unfold nearestEven
    dsimp only
    split
    · omega
    · split
      · omega
      · have := Nat.mod_lt (n / d) (show 0 < 2 by omega)
        omega

theorem le_nearestEven {n d b : ℕ} (positive : 0 < d) (le : b * d ≤ n) : b ≤ nearestEven n d := by
  have quotientLe : b ≤ n / d := (Nat.le_div_iff_mul_le positive).mpr le
  unfold nearestEven
  dsimp only
  split
  · exact quotientLe
  · split <;> omega

/-- A ratio in units of `2 ^ t`, both parts shifted to whole numbers. -/
theorem shifted_ratio (n t : ℕ) (e : ℤ) :
    ((n <<< (e - t).toNat : ℕ) : ℚ) * 2 ^ t = n * 2 ^ e * 2 ^ (t - e).toNat := by
  have exponents : (((e - t).toNat : ℕ) : ℤ) + t = e + ((t - e).toNat : ℕ) := by omega
  rw [Nat.shiftLeft_eq]
  push_cast
  rw [mul_assoc, mul_assoc, ← zpow_natCast, ← zpow_natCast, ← zpow_natCast,
    ← zpow_add₀ (by norm_num), ← zpow_add₀ (by norm_num), exponents]

theorem shifted_parts (d b t : ℕ) (e : ℤ) :
    ((b * d <<< (t - e).toNat : ℕ) : ℚ) * 2 ^ t = b * 2 ^ t * d * 2 ^ (t - e).toNat := by
  rw [Nat.shiftLeft_eq]
  push_cast
  ring

theorem shifted_le_iff {n d b t : ℕ} {e : ℤ} :
    n <<< (e - t).toNat ≤ b * d <<< (t - e).toNat ↔ (n : ℚ) * 2 ^ e ≤ b * 2 ^ t * d := by
  have power : (0 : ℚ) < 2 ^ t := by positivity
  rw [← Nat.cast_le (α := ℚ), ← mul_le_mul_iff_left₀ power, shifted_ratio, shifted_parts]
  exact mul_le_mul_iff_left₀ (by positivity)

theorem le_shifted_iff {n d b t : ℕ} {e : ℤ} :
    b * d <<< (t - e).toNat ≤ n <<< (e - t).toNat ↔ (b : ℚ) * 2 ^ t * d ≤ n * 2 ^ e := by
  have power : (0 : ℚ) < 2 ^ t := by positivity
  rw [← Nat.cast_le (α := ℚ), ← mul_le_mul_iff_left₀ power, shifted_ratio, shifted_parts]
  exact mul_le_mul_iff_left₀ (by positivity)

section

variable {n d : ℕ} {e : ℤ}

/-- The unit of the last place of a ratio, and what it says of its size. -/
theorem ratio_bounds {t : ℕ} (positive : 0 < d) (le : d ≤ n)
    (target : t = (e + Nat.log2 (n / d) - 52).toNat) :
    (n : ℚ) * 2 ^ e ≤ (2 ^ 53 : ℕ) * 2 ^ t * d ∧
    (t = 0 ∨ ((2 ^ 52 : ℕ) : ℚ) * 2 ^ t * d ≤ n * 2 ^ e) := by
  have nonzero : n / d ≠ 0 := (Nat.div_pos le positive).ne'
  have below : n < 2 ^ (Nat.log2 (n / d) + 1) * d :=
    (Nat.div_lt_iff_lt_mul positive).mp Nat.lt_log2_self
  have above : 2 ^ Nat.log2 (n / d) * d ≤ n :=
    (Nat.le_div_iff_mul_le positive).mp (Nat.log2_self_le nonzero)
  generalize Nat.log2 (n / d) = l at *
  have power : (0 : ℚ) < 2 ^ e := by positivity
  have dPositive : (0 : ℚ) < d := by exact_mod_cast positive
  constructor
  · calc (n : ℚ) * 2 ^ e ≤ (2 ^ (l + 1) * d : ℕ) * 2 ^ e :=
          mul_le_mul_of_nonneg_right (by exact_mod_cast below.le) power.le
      _ = 2 ^ ((l + 1 : ℕ) + e : ℤ) * d := by
          rw [zpow_add₀ (by norm_num), zpow_natCast]
          push_cast
          ring
      _ ≤ 2 ^ ((53 : ℕ) + (t : ℕ) : ℤ) * d := by
          refine mul_le_mul_of_nonneg_right (zpow_le_zpow_right₀ (by norm_num) ?_) dPositive.le
          omega
      _ = (2 ^ 53 : ℕ) * 2 ^ t * d := by
          rw [zpow_add₀ (by norm_num), zpow_natCast, zpow_natCast]
          push_cast
          ring
  · rcases Nat.eq_zero_or_pos t with zero | scaled
    · exact .inl zero
    · refine .inr ?_
      calc ((2 ^ 52 : ℕ) : ℚ) * 2 ^ t * d = 2 ^ ((l : ℕ) + e : ℤ) * d := by
            rw [show (l : ℤ) + e = (52 : ℕ) + (t : ℕ) by omega, zpow_add₀ (by norm_num),
              zpow_natCast, zpow_natCast]
            push_cast
            ring
        _ = (2 ^ l * d : ℕ) * 2 ^ e := by
            rw [zpow_add₀ (by norm_num), zpow_natCast]
            push_cast
            ring
        _ ≤ n * 2 ^ e := mul_le_mul_of_nonneg_right (by exact_mod_cast above) power.le

/-- A ratio is rounded to `k` units of `2 ^ t`, and `k` does not pass a whole number of units. -/
structure Quantized (n d : ℕ) (e : ℤ) (k t : ℕ) : Prop where
  assembled : ofRatio false n d e = assemble false k t
  mantissa : k = nearestEven (n <<< (e - t).toNat) (d <<< (t - e).toNat)
  bounded : (n : ℚ) * 2 ^ e ≤ (2 ^ 53 : ℕ) * 2 ^ t * d
  small : k ≤ 2 ^ 53
  full : t = 0 ∨ 2 ^ 52 ≤ k
  large : t = 0 ∨ ((2 ^ 52 : ℕ) : ℚ) * 2 ^ t * d ≤ n * 2 ^ e
  le_of_le : ∀ b : ℕ, (n : ℚ) * 2 ^ e ≤ b * 2 ^ t * d → k ≤ b
  ge_of_ge : ∀ b : ℕ, (b : ℚ) * 2 ^ t * d ≤ n * 2 ^ e → b ≤ k

theorem exists_quantized (e : ℤ) (positive : 0 < d) (le : d ≤ n) :
    ∃ k t, Quantized n d e k t := by
  have nonzero : n ≠ 0 := by omega
  generalize target : (e + Nat.log2 (n / d) - 52).toNat = t
  obtain ⟨atMost, atLeast⟩ := ratio_bounds positive le target.symm
  have shifted : 0 < d <<< (t - e).toNat := by
    rw [Nat.shiftLeft_eq]
    positivity
  refine ⟨nearestEven (n <<< (e - t).toNat) (d <<< (t - e).toNat), t, ?_, rfl, atMost, ?_, ?_,
    atLeast, ?_, ?_⟩
  · simp only [ofRatio, if_neg nonzero, target]
  · exact nearestEven_le shifted (shifted_le_iff.mpr atMost)
  · exact atLeast.imp_right fun large => le_nearestEven shifted (le_shifted_iff.mpr large)
  · exact fun b le => nearestEven_le shifted (shifted_le_iff.mpr le)
  · exact fun b le => le_nearestEven shifted (le_shifted_iff.mpr le)

/-- A ratio that does not exceed a number is not rounded beyond it. -/
theorem ofRatio_le {bound : ℕ} (positive : 0 < d) (le : d ≤ n)
    (representable : Representable bound) (small : (bound : ℤ) < 2 ^ overflow)
    (ratio : (n : ℚ) * 2 ^ e ≤ bound * d) :
    (ofRatio false n d e).isFinite = true ∧ 0 ≤ (ofRatio false n d e).steps ∧
    (ofRatio false n d e).steps ≤ bound := by
  obtain ⟨k, t, quantized⟩ := exists_quantized e positive le
  have product : k * 2 ^ t ≤ bound := by
    obtain ⟨b, rfl⟩ : 2 ^ t ∣ bound := by
      rcases Nat.lt_or_ge (unit bound) t with coarse | fine
      · -- A ratio with such a unit would be larger than the bound.
        have large := quantized.large.resolve_left (by omega)
        have less := abs_lt_unit bound
        rw [Nat.abs_cast] at less
        have wide := less.trans_le (two_pow_le (show 53 + unit bound ≤ 52 + t by omega))
        have dPositive : (0 : ℚ) < d := by exact_mod_cast positive
        have atLeastBound : 2 ^ 52 * 2 ^ t ≤ bound := by
          exact_mod_cast le_of_mul_le_mul_right (large.trans ratio) dPositive
        rw [pow_add] at wide
        exact absurd atLeastBound (not_le.mpr (by exact_mod_cast wide))
      · exact_mod_cast (two_pow_dvd fine).trans representable
    rw [mul_comm]
    refine Nat.mul_le_mul_left _ (quantized.le_of_le b ?_)
    push_cast at ratio
    linarith
  rw [quantized.assembled]
  rcases assemble_spec false quantized.small quantized.full with ⟨finite, same⟩ | ⟨_, large⟩
  · have steps_eq : signed false (k * 2 ^ t) = (k * 2 ^ t : ℕ) := rfl
    rw [same, steps_eq]
    exact ⟨finite, Int.natCast_nonneg _, Int.ofNat_le.mpr product⟩
  · have : 2 ^ overflow ≤ bound := large.trans product
    exact absurd small (not_lt.mpr (by exact_mod_cast this))

/-- A ratio that is not below a number is not rounded below it. -/
theorem le_ofRatio {bound : ℕ} (positive : 0 < d) (le : d ≤ n)
    (representable : Representable bound) (ratio : (bound : ℚ) * d ≤ n * 2 ^ e)
    (finite : (ofRatio false n d e).isFinite = true) :
    (bound : ℤ) ≤ (ofRatio false n d e).steps := by
  obtain ⟨k, t, quantized⟩ := exists_quantized e positive le
  have product : bound ≤ k * 2 ^ t := by
    rcases Nat.lt_or_ge (unit bound) t with coarse | fine
    · have less := abs_lt_unit bound
      rw [Nat.abs_cast] at less
      have wide := less.trans_le (two_pow_le (show 53 + unit bound ≤ 52 + t by omega))
      rw [pow_add] at wide
      have full := Nat.mul_le_mul_right (2 ^ t) (quantized.full.resolve_left (by omega))
      exact le_trans (by exact_mod_cast wide.le) full
    · obtain ⟨b, rfl⟩ : 2 ^ t ∣ bound := by exact_mod_cast (two_pow_dvd fine).trans representable
      rw [mul_comm]
      refine Nat.mul_le_mul_right _ (quantized.ge_of_ge b ?_)
      push_cast at ratio
      linarith
  rw [quantized.assembled] at finite ⊢
  rcases assemble_spec false quantized.small quantized.full with ⟨_, same⟩ | ⟨infinite, _⟩
  · rw [same]
    exact Int.ofNat_le.mpr product
  · rw [infinite] at finite
    cases finite

end

theorem assemble_true (m e : ℕ) : assemble true m e = -assemble false m e := by
  unfold assemble
  split
  · rfl
  · split <;> rfl

/-- A ratio is rounded without a look at its sign. -/
theorem ofRatio_true (n d : ℕ) (e : ℤ) : ofRatio true n d e = -ofRatio false n d e := by
  unfold ofRatio
  split
  · rfl
  · exact assemble_true _ _

theorem steps_ofRatio_nonneg (n d : ℕ) (e : ℤ) : 0 ≤ (ofRatio false n d e).steps := by
  have assembled : ∀ m e, 0 ≤ (assemble false m e).steps := by
    intro m e
    unfold assemble
    split
    · exact Int.natCast_nonneg _
    · split
      · exact Int.natCast_nonneg _
      · exact le_rfl
  unfold ofRatio
  split
  · exact le_rfl
  · exact assembled _ _

/-! ## Quotients of numbers -/

theorem exists_finite_of_pos {x : Binary64} (positive : 0 < x.steps) :
    ∃ m e canonical, x = .finite false m e canonical ∧ 0 < m := by
  cases x with
  | nan => cases positive
  | infinite negative => cases positive
  | finite negative m e canonical =>
    rw [steps] at positive
    cases negative with
    | true =>
      have : (0 : ℤ) ≤ (m * 2 ^ e : ℕ) := Int.natCast_nonneg _
      simp only [signed, if_true] at positive
      omega
    | false =>
      refine ⟨m, e, canonical, rfl, Nat.pos_of_ne_zero fun zero => ?_⟩
      simp [signed, zero] at positive

theorem isFinite_of_pos {x : Binary64} (positive : 0 < x.steps) : x.isFinite = true := by
  obtain ⟨_, _, _, rfl, _⟩ := exists_finite_of_pos positive
  rfl

/-- A quotient of positive numbers is a rounded ratio. -/
theorem div_eq_ofRatio {x y : Binary64} (positiveX : 0 < x.steps) (positiveY : 0 < y.steps) :
    ∃ (n d : ℕ) (e : ℤ), x / y = ofRatio false n d e ∧ 0 < d ∧ d ≤ n ∧
      (n : ℚ) * 2 ^ e * y.steps = x.steps * 2 ^ 1074 * d := by
  obtain ⟨m, e, canonicalX, rfl, mPositive⟩ := exists_finite_of_pos positiveX
  obtain ⟨n, f, canonicalY, rfl, nPositive⟩ := exists_finite_of_pos positiveY
  refine ⟨m <<< 108, n, (e : ℤ) - f + 1074 - 108, ?_, nPositive, ?_, ?_⟩
  · show div _ _ = _
    rw [div, if_neg nPositive.ne']
    rfl
  · have narrow : n < 2 ^ 53 := canonicalY.1
    rw [Nat.shiftLeft_eq]
    omega
  · have exponents : (2 : ℚ) ^ (108 : ℕ) * 2 ^ ((e : ℤ) - f + 1074 - 108) * 2 ^ f
        = 2 ^ e * 2 ^ 1074 := by
      rw [← zpow_natCast, ← zpow_natCast, ← zpow_natCast, ← zpow_natCast,
        ← zpow_add₀ (by norm_num), ← zpow_add₀ (by norm_num), ← zpow_add₀ (by norm_num)]
      congr 1
      push_cast
      ring
    simp only [Nat.shiftLeft_eq, steps, signed, Bool.false_eq_true, if_false, Nat.cast_mul,
      Nat.cast_pow, Nat.cast_ofNat, Int.cast_mul, Int.cast_pow, Int.cast_natCast, Int.cast_ofNat]
    generalize (2 : ℚ) ^ 1074 = second at exponents ⊢
    linear_combination ((m : ℚ) * n) * exponents

section

variable {x y : Binary64} {bound : ℕ}

/-- A quotient that does not exceed a number is not rounded beyond it. -/
theorem div_le (positiveX : 0 < x.steps) (positiveY : 0 < y.steps)
    (representable : Representable bound) (small : (bound : ℤ) < 2 ^ overflow)
    (le : x.steps * 2 ^ 1074 ≤ bound * y.steps) :
    (x / y).isFinite = true ∧ 0 ≤ (x / y).steps ∧ (x / y).steps ≤ bound := by
  obtain ⟨n, d, e, quotient, positive, large, ratio⟩ := div_eq_ofRatio positiveX positiveY
  rw [quotient]
  refine ofRatio_le positive large representable small ?_
  have whole := Int.cast_le (R := ℚ).mpr le
  simp only [Int.cast_mul, Int.cast_pow, Int.cast_ofNat, Int.cast_natCast] at whole
  have yPositive : (0 : ℚ) < y.steps := by exact_mod_cast positiveY
  rw [← mul_le_mul_iff_left₀ yPositive, ratio, mul_right_comm (bound : ℚ)]
  exact mul_le_mul_of_nonneg_right whole (Nat.cast_nonneg d)

/-- A quotient that is not below a number is not rounded below it. -/
theorem le_div (positiveX : 0 < x.steps) (positiveY : 0 < y.steps)
    (representable : Representable bound) (finite : (x / y).isFinite = true)
    (le : bound * y.steps ≤ x.steps * 2 ^ 1074) : (bound : ℤ) ≤ (x / y).steps := by
  obtain ⟨n, d, e, quotient, positive, large, ratio⟩ := div_eq_ofRatio positiveX positiveY
  rw [quotient] at finite ⊢
  refine le_ofRatio positive large representable ?_ finite
  have whole := Int.cast_le (R := ℚ).mpr le
  simp only [Int.cast_mul, Int.cast_pow, Int.cast_ofNat, Int.cast_natCast] at whole
  have yPositive : (0 : ℚ) < y.steps := by exact_mod_cast positiveY
  rw [← mul_le_mul_iff_left₀ yPositive, ratio, mul_right_comm (bound : ℚ)]
  exact mul_le_mul_of_nonneg_right whole (Nat.cast_nonneg d)

theorem div_nonpos (nonpos : x.steps ≤ 0) (positive : 0 < y.steps) : (x / y).steps ≤ 0 := by
  obtain ⟨n, f, canonicalY, rfl, nPositive⟩ := exists_finite_of_pos positive
  cases x with
  | nan => exact le_rfl
  | infinite negative => exact le_rfl
  | finite negative m e canonical =>
    show (div _ _).steps ≤ 0
    rw [div, if_neg nPositive.ne']
    cases negative with
    | true =>
      rw [show (true != false) = true from rfl, ofRatio_true, steps_neg, neg_nonpos]
      exact steps_ofRatio_nonneg _ _ _
    | false =>
      have zero : m * 2 ^ e = 0 := Int.ofNat.inj (le_antisymm nonpos (Int.natCast_nonneg _))
      obtain rfl : m = 0 := by simpa using zero
      exact le_rfl

theorem isZero_div (zero : x.isZero = true) (positive : 0 < y.steps) : (x / y).isZero = true := by
  obtain ⟨n, f, canonicalY, rfl, nPositive⟩ := exists_finite_of_pos positive
  obtain ⟨negative, rfl⟩ := eq_signedZero_of_isZero zero
  show (div _ _).isZero = true
  rw [signedZero, div, if_neg nPositive.ne']
  rfl

end

/-! ## Whole parts -/

theorem toNat?_of_isWhole {z : Binary64} {k : ℕ} (whole : IsWhole k z) : z.toNat? = some k := by
  obtain ⟨finite, same⟩ := whole
  cases z with
  | nan => cases finite
  | infinite negative => cases finite
  | finite negative m e canonical =>
    have nonneg : 0 ≤ (k : ℤ) * 2 ^ 1074 :=
      mul_nonneg (Int.natCast_nonneg k) (two_pow_pos 1074).le
    have magnitude : m * 2 ^ e = k * 2 ^ 1074 := by
      have magnitudes := abs_signed negative (m * 2 ^ e)
      rw [← steps.eq_1 negative m e canonical, same, abs_of_nonneg nonneg] at magnitudes
      refine Int.ofNat.inj (magnitudes.symm.trans ?_)
      rw [Int.ofNat_eq_natCast, Nat.cast_mul, Nat.cast_pow, Nat.cast_ofNat]
    have sign : (negative && m != 0) = false := by
      cases negative with
      | false => rfl
      | true =>
        rw [← same, steps, signed, if_pos rfl] at nonneg
        have zero : m * 2 ^ e = 0 := by omega
        simpa using zero
    rw [toNat?, sign, Nat.shiftLeft_eq, Nat.shiftRight_eq_div_pow, magnitude,
      Nat.mul_div_cancel _ (Nat.two_pow_pos 1074)]
    rfl

theorem toNat?_of_isWhole_neg {z : Binary64} {k : ℤ} (whole : IsWhole k z) (negative : k < 0) :
    z.toNat? = none := by
  obtain ⟨finite, same⟩ := whole
  have below : z.steps < 0 := same ▸ mul_neg_of_neg_of_pos negative (two_pow_pos 1074)
  cases z with
  | nan => cases finite
  | infinite _ => cases finite
  | finite sign m e canonical =>
    cases sign with
    | false => exact absurd below (not_lt.mpr (Int.natCast_nonneg _))
    | true =>
      have nonzero : m ≠ 0 := by
        rintro rfl
        simp [steps, signed] at below
      simp [toNat?, nonzero]

theorem IsWhole.neg {z : Binary64} {k : ℤ} (whole : IsWhole k z) : IsWhole (-k) (-z) :=
  ⟨(isFinite_neg z).trans whole.1, by rw [steps_neg, whole.2, neg_mul]⟩

theorem NearestTo.isWhole {z : Binary64} {k : ℤ} (nearest : NearestTo (k * 2 ^ 1074) z)
    (small : |k| < 2 ^ 53) : IsWhole k z := by
  have bound : |k * 2 ^ 1074| < 2 ^ (53 + 1074) := by
    rw [abs_mul, abs_of_pos (two_pow_pos 1074), pow_add]
    exact mul_lt_mul_of_pos_right small (two_pow_pos _)
  exact nearest.eq_of_representable (representable_of_dvd (dvd_mul_left _ _) bound.le)
    (bound.trans (two_pow_lt (by decide)))

theorem IsWhole.sub_one {z : Binary64} {k : ℤ} (whole : IsWhole k z) (small : |k - 1| < 2 ^ 53) :
    IsWhole (k - 1) (z - 1) := by
  have one : IsWhole 1 (1 : Binary64) := isWhole_ofNat (n := 1) (by decide)
  have nearest := sub_nearestTo whole.1 one.1
  rw [whole.2, one.2, ← sub_mul] at nearest
  exact nearest.isWhole small

theorem IsWhole.add_one {z : Binary64} {k : ℤ} (whole : IsWhole k z) (small : |k + 1| < 2 ^ 53) :
    IsWhole (k + 1) (z + 1) := by
  have one : IsWhole 1 (1 : Binary64) := isWhole_ofNat (n := 1) (by decide)
  have nearest := add_nearestTo whole.1 one.1
  rw [whole.2, one.2, ← add_mul] at nearest
  exact nearest.isWhole small

theorem IsWhole.unique {z : Binary64} {j k : ℤ} (first : IsWhole j z) (second : IsWhole k z) :
    j = k :=
  mul_right_cancel₀ (two_pow_pos 1074).ne' (first.2.symm.trans second.2)

theorem ediv_eq_of_bounds {n d k : ℤ} (positive : 0 < d) (low : k * d ≤ n)
    (high : n < (k + 1) * d) : n / d = k :=
  le_antisymm (Int.lt_add_one_iff.mp (Int.ediv_lt_of_lt_mul positive high))
    (Int.le_ediv_of_mul_le positive low)

/-- The mantissa of a number with a fraction, shifted to whole seconds. -/
theorem shiftRight_bounds (m : ℕ) {e : ℕ} (fraction : e < 1074) :
    m >>> (1074 - e) * 2 ^ 1074 ≤ m * 2 ^ e ∧ m * 2 ^ e < (m >>> (1074 - e) + 1) * 2 ^ 1074 ∧
    (m >>> (1074 - e) <<< (1074 - e) = m ↔ m >>> (1074 - e) * 2 ^ 1074 = m * 2 ^ e) := by
  have power := Nat.two_pow_pos e
  rw [Nat.shiftLeft_eq, Nat.shiftRight_eq_div_pow,
    show 2 ^ 1074 = 2 ^ (1074 - e) * 2 ^ e by rw [← pow_add, Nat.sub_add_cancel (by omega)],
    ← mul_assoc, ← mul_assoc, Nat.mul_le_mul_right_iff power, Nat.mul_lt_mul_right power,
    Nat.mul_right_cancel_iff power]
  refine ⟨Nat.div_mul_le_self _ _, ?_, Iff.rfl⟩
  rw [mul_comm]
  exact Nat.lt_mul_div_succ m (Nat.two_pow_pos _)

/-- The whole part of a number is the largest whole number that does not exceed it. -/
theorem isWhole_floor {z : Binary64} (finite : z.isFinite = true) :
    IsWhole (z.steps / 2 ^ 1074) z.floor := by
  have second := two_pow_pos 1074
  cases z with
  | nan => cases finite
  | infinite _ => cases finite
  | finite negative m e canonical =>
    rw [floor]
    split
    · next whole =>
      obtain ⟨k, rfl⟩ := Nat.exists_eq_add_of_le whole
      refine ⟨rfl, (Int.ediv_mul_cancel ?_).symm⟩
      rw [steps, signed_eq_mul, Nat.cast_mul, Nat.cast_pow, pow_add]
      exact Dvd.dvd.mul_left (Dvd.dvd.mul_left (dvd_mul_right _ _) _) _
    · next fraction =>
      obtain ⟨low, high, exactly⟩ := shiftRight_bounds m (not_le.mp fraction)
      have narrow : m >>> (1074 - e) + 1 < 2 ^ 53 := by
        have below : m < 2 ^ 53 := canonical.1
        have half : m >>> (1074 - e) ≤ m / 2 := by
          rw [Nat.shiftRight_eq_div_pow]
          exact Nat.div_le_div_left (Nat.le_self_pow (by omega) 2) (by omega)
        omega
      dsimp only
      generalize m >>> (1074 - e) = whole at *
      have lowSteps : (whole : ℤ) * 2 ^ 1074 ≤ (m * 2 ^ e : ℕ) := by exact_mod_cast low
      have highSteps : ((m * 2 ^ e : ℕ) : ℤ) < (whole + 1) * 2 ^ 1074 := by exact_mod_cast high
      cases negative with
      | false =>
        have quotient : steps (.finite false m e canonical) / 2 ^ 1074 = whole :=
          ediv_eq_of_bounds second lowSteps highSteps
        rw [quotient]
        exact isWhole_ofNat (by omega)
      | true =>
        have same : steps (.finite true m e canonical) = -((m * 2 ^ e : ℕ) : ℤ) := rfl
        rw [same, ofRatio_true, Bool.true_and]
        by_cases integer : whole <<< (1074 - e) = m
        · have quotient : -((m * 2 ^ e : ℕ) : ℤ) / 2 ^ 1074 = -whole := by
            rw [← exactly.mp integer, Nat.cast_mul, Nat.cast_pow, Nat.cast_ofNat, ← neg_mul]
            exact Int.mul_ediv_cancel _ second.ne'
          rw [quotient, if_neg (by simp [integer])]
          exact (isWhole_ofNat (by omega)).neg
        · -- The whole part of a negative number lies one further from zero.
          have quotient : -((m * 2 ^ e : ℕ) : ℤ) / 2 ^ 1074 = -(whole + 1 : ℕ) := by
            have less : (whole : ℤ) * 2 ^ 1074 < (m * 2 ^ e : ℕ) := by
              exact_mod_cast low.lt_of_ne (mt exactly.mpr integer)
            rw [Nat.cast_add_one]
            refine ediv_eq_of_bounds second ?_ ?_
            · rw [neg_mul]
              exact neg_le_neg highSteps.le
            · rw [neg_add, neg_add_cancel_right, neg_mul]
              exact neg_lt_neg less
          rw [quotient, if_pos (by simpa using integer)]
          exact (isWhole_ofNat narrow).neg

/-- The whole part of a number that is not negative. -/
theorem toNat?_floor {z : Binary64} (finite : z.isFinite = true) (nonneg : 0 ≤ z.steps) :
    z.floor.toNat? = some (z.steps / 2 ^ 1074).toNat := by
  refine toNat?_of_isWhole ?_
  rw [Int.toNat_of_nonneg (Int.ediv_nonneg nonneg (two_pow_pos 1074).le)]
  exact isWhole_floor finite

theorem isFinite_of_isWhole_floor {z : Binary64} {k : ℤ} (whole : IsWhole k z.floor) :
    z.isFinite = true := by
  cases z with
  | nan => exact whole.1
  | infinite negative => exact whole.1
  | finite => rfl

theorem isWhole_of_toNat?_floor {z : Binary64} {k : ℕ} (found : z.floor.toNat? = some k) :
    IsWhole k z.floor := by
  have finite : z.isFinite = true := by
    cases z with
    | nan => cases found
    | infinite _ => cases found
    | finite => rfl
  have whole := isWhole_floor finite
  rcases lt_or_ge (z.steps / 2 ^ 1074) 0 with negative | nonneg
  · rw [toNat?_of_isWhole_neg whole negative] at found
    cases found
  · obtain ⟨j, same⟩ := Int.eq_ofNat_of_zero_le nonneg
    rw [same] at whole
    rw [toNat?_of_isWhole whole] at found
    cases found
    exact whole

/-- A multiple is the nearest one to itself. -/
theorem multiple_nearest (m q : ℕ) {second : ℕ} (positive : 0 < second) :
    m * q * (2 * second) ≤ 2 * (m * (second * q)) + second ∧
    2 * (m * (second * q)) + second < (m * q + 1) * (2 * second) := by
  rw [show m * q * (2 * second) = 2 * (m * (second * q)) by ring,
    show (m * q + 1) * (2 * second) = 2 * (m * (second * q)) + 2 * second by ring]
  omega

/-- A shift after half of a unit was added finds the nearest multiple. -/
theorem shift_nearest (m a e : ℕ) :
    (m + 1 <<< a) >>> (a + 1) * (2 * 2 ^ (a + e + 1)) ≤ 2 * (m * 2 ^ e) + 2 ^ (a + e + 1) ∧
    2 * (m * 2 ^ e) + 2 ^ (a + e + 1)
      < ((m + 1 <<< a) >>> (a + 1) + 1) * (2 * 2 ^ (a + e + 1)) := by
  rw [Nat.shiftLeft_eq, Nat.shiftRight_eq_div_pow, one_mul]
  have low := Nat.div_mul_le_self (m + 2 ^ a) (2 ^ (a + 1))
  have high := Nat.lt_mul_div_succ (m + 2 ^ a) (Nat.two_pow_pos (a + 1))
  have positive := Nat.two_pow_pos e
  generalize (m + 2 ^ a) / 2 ^ (a + 1) = k at *
  rw [pow_succ, pow_add]
  rw [pow_succ] at low high
  generalize 2 ^ a = half at *
  generalize 2 ^ e = scale at *
  constructor
  · calc k * (2 * (half * scale * 2)) = k * (half * 2) * (2 * scale) := by ring
      _ ≤ (m + half) * (2 * scale) := Nat.mul_le_mul_right _ low
      _ = 2 * (m * scale) + half * scale * 2 := by ring
  · calc 2 * (m * scale) + half * scale * 2 = (m + half) * (2 * scale) := by ring
      _ < half * 2 * (k + 1) * (2 * scale) := Nat.mul_lt_mul_of_pos_right high (by omega)
      _ = (k + 1) * (2 * (half * scale * 2)) := by ring

theorem isWhole_round_finite {m e : ℕ} (canonical : Canonical m e) :
    ∃ k : ℕ, IsWhole k (Binary64.finite false m e canonical).round ∧
      k * (2 * 2 ^ 1074) ≤ 2 * (m * 2 ^ e) + 2 ^ 1074 ∧
      2 * (m * 2 ^ e) + 2 ^ 1074 < (k + 1) * (2 * 2 ^ 1074) := by
  rw [round]
  split
  · next whole =>
    obtain ⟨k, rfl⟩ := Nat.exists_eq_add_of_le whole
    refine ⟨m * 2 ^ k, ⟨rfl, ?_⟩, ?_⟩
    · have power : m * 2 ^ (1074 + k) = m * 2 ^ k * 2 ^ 1074 := by
        rw [pow_add, mul_comm (2 ^ 1074), mul_assoc]
      show ((m * 2 ^ (1074 + k) : ℕ) : ℤ) = (m * 2 ^ k : ℕ) * 2 ^ 1074
      rw [power, Nat.cast_mul _ (2 ^ 1074), Nat.cast_pow 2 1074, Nat.cast_ofNat]
    · rw [pow_add 2 1074 k]
      exact multiple_nearest m (2 ^ k) (pow_pos two_pos 1074)
  · next fraction =>
    have shifted := shift_nearest m (1073 - e) e
    rw [show 1073 - e + e + 1 = 1074 by omega, show 1073 - e + 1 = 1074 - e by omega] at shifted
    refine ⟨_, isWhole_ofNat ?_, shifted⟩
    have below : m < 2 ^ 53 := canonical.1
    have wide : 2 ^ (1073 - e + 1) = 2 * 2 ^ (1073 - e) := pow_succ' 2 _
    rw [Nat.shiftLeft_eq, Nat.shiftRight_eq_div_pow, show 1074 - e = 1073 - e + 1 by omega, wide,
      Nat.div_lt_iff_lt_mul (by positivity)]
    have := Nat.two_pow_pos (1073 - e)
    omega

/-- The nearest whole number to one that is not negative, a half up. -/
theorem isWhole_round {z : Binary64} (finite : z.isFinite = true) (nonneg : 0 ≤ z.steps) :
    ∃ k : ℕ, IsWhole k z.round ∧ k * (2 * 2 ^ 1074) ≤ 2 * z.steps + 2 ^ 1074 ∧
      2 * z.steps + 2 ^ 1074 < (k + 1) * (2 * 2 ^ 1074) := by
  rcases nonneg.eq_or_lt with zero | positive
  · obtain ⟨negative, rfl⟩ := eq_signedZero_of_isZero ((isZero_iff_steps finite).mpr zero.symm)
    have whole : IsWhole (0 : ℕ) (signedZero negative).round := by
      refine ⟨by cases negative <;> rfl, ?_⟩
      rw [Nat.cast_zero, zero_mul]
      cases negative <;> rfl
    refine ⟨0, whole, ?_⟩
    have := two_pow_pos 1074
    rw [← zero, Nat.cast_zero]
    omega
  · obtain ⟨m, e, canonical, rfl, _⟩ := exists_finite_of_pos positive
    have numerator : steps (.finite false m e canonical) = (m * 2 ^ e : ℕ) := rfl
    have power : (2 : ℤ) ^ 1074 = (2 ^ 1074 : ℕ) := by rw [Nat.cast_pow, Nat.cast_ofNat]
    obtain ⟨k, whole, low, high⟩ := isWhole_round_finite canonical
    refine ⟨k, whole, ?_⟩
    rw [numerator, power]
    generalize 2 ^ 1074 = second at *
    exact ⟨by exact_mod_cast low, by exact_mod_cast high⟩

theorem toNat?_round {z : Binary64} (finite : z.isFinite = true) (nonneg : 0 ≤ z.steps) :
    ∃ k : ℕ, z.round.toNat? = some k ∧ k * (2 * 2 ^ 1074) ≤ 2 * z.steps + 2 ^ 1074 ∧
      2 * z.steps + 2 ^ 1074 < (k + 1) * (2 * 2 ^ 1074) := by
  obtain ⟨k, whole, near⟩ := isWhole_round finite nonneg
  exact ⟨k, toNat?_of_isWhole whole, near⟩

/-- A rounded number exceeds the exact one by at most half a unit of its last place. -/
theorem Rounded.mul_le {n r : ℤ} (rounded : Rounded n r) (nonneg : 0 ≤ n) :
    2 ^ 53 * r ≤ (2 ^ 53 + 1) * n := by
  have near := rounded.near
  have distance := neg_abs_le (n - r)
  rcases Nat.eq_zero_or_pos (unit n) with zero | positive
  · rw [zero] at near
    omega
  · have large := two_pow_le_of_unit_pos positive
    rw [abs_of_nonneg nonneg, pow_add] at large
    omega

/-! ## Quotients that fit 32 bits -/

/-- A number with 21 binary places below `k` seconds, in steps. -/
def belowWhole (k : ℕ) : ℕ := (k * 2 ^ 21 - 1) * 2 ^ 1053

section

variable {k : ℕ} (positive : 0 < k) (small : k ≤ 2 ^ 32)

include positive

theorem cast_belowWhole : (belowWhole k : ℤ) = (k * 2 ^ 21 - 1) * 2 ^ 1053 := by
  rw [belowWhole, Nat.cast_mul, Nat.cast_sub (by omega), Nat.cast_mul, Nat.cast_pow, Nat.cast_pow,
    Nat.cast_ofNat, Nat.cast_one]

theorem belowWhole_lt : (belowWhole k : ℤ) < k * 2 ^ 1074 := by
  rw [cast_belowWhole positive, show (2 : ℤ) ^ 1074 = 2 ^ 21 * 2 ^ 1053 from pow_add 2 21 1053,
    ← mul_assoc, sub_one_mul]
  exact sub_lt_self _ (two_pow_pos 1053)

include small

theorem representable_belowWhole : Representable (belowWhole k) := by
  rw [cast_belowWhole positive]
  refine representable_of_dvd (k := 1053) (dvd_mul_left _ _) ?_
  rw [abs_mul, abs_of_pos (two_pow_pos 1053), abs_of_nonneg (by omega), pow_add]
  exact mul_le_mul_of_nonneg_right (by omega) (two_pow_pos 1053).le

theorem belowWhole_lt_overflow : (belowWhole k : ℤ) < 2 ^ overflow := by
  refine (belowWhole_lt positive).trans_le ?_
  calc (k : ℤ) * 2 ^ 1074 ≤ 2 ^ 32 * 2 ^ 1074 :=
        mul_le_mul_of_nonneg_right (by exact_mod_cast small) (two_pow_pos 1074).le
    _ = 2 ^ (32 + 1074) := (pow_add 2 32 1074).symm
    _ ≤ 2 ^ overflow := two_pow_le (by decide)

/-- A quotient that is below a whole number by 21 binary places is not rounded up to it. -/
theorem div_lt_whole {x y : Binary64} (positiveX : 0 < x.steps) (positiveY : 0 < y.steps)
    (le : x.steps * 2 ^ 21 ≤ (k * 2 ^ 21 - 1) * y.steps) :
    (x / y).isFinite = true ∧ 0 ≤ (x / y).steps ∧ (x / y).steps < k * 2 ^ 1074 := by
  have product : x.steps * 2 ^ 1074 ≤ belowWhole k * y.steps := by
    calc x.steps * 2 ^ 1074 = x.steps * 2 ^ 21 * 2 ^ 1053 := by
          rw [mul_assoc]
          exact congrArg _ (pow_add 2 21 1053)
      _ ≤ (k * 2 ^ 21 - 1) * y.steps * 2 ^ 1053 :=
          mul_le_mul_of_nonneg_right le (two_pow_pos 1053).le
      _ = belowWhole k * y.steps := by rw [cast_belowWhole positive, mul_right_comm]
  obtain ⟨finite, nonneg, atMost⟩ := div_le positiveX positiveY
    (representable_belowWhole positive small) (belowWhole_lt_overflow positive small) product
  exact ⟨finite, nonneg, atMost.trans_lt (belowWhole_lt positive)⟩

end

/-- A quotient below `2 ^ 32` is not rounded up to it. -/
theorem div_lt_counts {x y : Binary64} (positiveX : 0 < x.steps) (positiveY : 0 < y.steps)
    (less : x.steps < 2 ^ 32 * y.steps) :
    (x / y).isFinite = true ∧ 0 ≤ (x / y).steps ∧ (x / y).steps < 2 ^ 32 * 2 ^ 1074 := by
  have gap := (representable_steps x).mul_le_of_lt ((representable_steps y).mul_two_pow 32)
    positiveX less
  exact div_lt_whole (k := 2 ^ 32) (by norm_num) le_rfl positiveX positiveY (by
    push_cast
    linarith)

/-- The exact quotient is hardly below the whole part of the rounded one, and less than one above
it. -/
theorem floor_div_bounds {x y : Binary64} {k : ℕ} (positiveX : 0 < x.steps)
    (positiveY : 0 < y.steps) (finite : (x / y).isFinite = true)
    (whole : IsWhole k (x / y).floor) (small : k < 2 ^ 32) :
    (k * 2 ^ 21 - 1) * y.steps < x.steps * 2 ^ 21 ∧ x.steps < (k + 1) * y.steps := by
  have second := two_pow_pos 1074
  have same := (isWhole_floor finite).unique whole
  constructor
  · by_contra le
    rcases Nat.eq_zero_or_pos k with rfl | positive
    · rw [Nat.cast_zero, zero_mul, zero_sub, neg_one_mul] at le
      linarith
    · obtain ⟨_, _, less⟩ := div_lt_whole positive small.le positiveX positiveY (not_lt.mp le)
      exact absurd same (Int.ediv_lt_of_lt_mul second less).ne
  · by_contra le
    have atLeast : ((k + 1) * 2 ^ 1074 : ℕ) ≤ (x / y).steps := by
      refine le_div positiveX positiveY ?_ finite ?_
      · rw [Nat.cast_mul, Nat.cast_pow, Nat.cast_ofNat]
        refine representable_of_dvd (k := 1074) (dvd_mul_left _ _) ?_
        rw [abs_of_nonneg (by positivity), pow_add]
        exact mul_le_mul_of_nonneg_right (by omega) second.le
      · rw [Nat.cast_mul, Nat.cast_pow, Nat.cast_ofNat, mul_right_comm, Nat.cast_add_one]
        exact mul_le_mul_of_nonneg_right (not_lt.mp le) second.le
    rw [Nat.cast_mul, Nat.cast_pow, Nat.cast_ofNat] at atLeast
    have := Int.le_ediv_of_mul_le second atLeast
    rw [same] at this
    omega

/-- The quotient of a multiple that was rounded to a number fits 32 bits if the factor does. -/
theorem toNat?_div_of_multiple {x y : Binary64} {count : ℕ} (positive : 0 < y.steps)
    (rounded : Rounded (count * y.steps) x.steps) (nonzero : 0 < count) (fits : count < 2 ^ 32) :
    ∃ quotient < 2 ^ 32, (x / y).floor.toNat? = some quotient := by
  have positiveX : 0 < x.steps := rounded.pos_iff.mpr (by positivity)
  have less : x.steps < 2 ^ 32 * y.steps := by
    have product := rounded.mul_le (by positivity)
    have factor : (count : ℤ) * y.steps ≤ (2 ^ 32 - 1) * y.steps :=
      mul_le_mul_of_nonneg_right (by omega) positive.le
    linarith
  obtain ⟨finite, nonneg, small⟩ := div_lt_counts positiveX positive less
  refine ⟨_, ?_, toNat?_floor finite nonneg⟩
  rw [Int.toNat_lt (Int.ediv_nonneg nonneg (two_pow_pos 1074).le)]
  exact Int.ediv_lt_of_lt_mul (two_pow_pos 1074) small

end PulseSequencer.Binary64

import PulseSequencer.Proofs.Binary64.Quotient

/-!
# Monotone arithmetic

Rounding keeps the order of numbers, so multiplication by a whole number, division by a positive
number and rounding to whole numbers do. A remainder never passes its divisor, and neither does a
number wrapped into `[0, y]`.

Results:
1. `mul_mono`, `div_mono`, `round_mono`: larger numbers have results that are not smaller.
2. `mod_bounds`, `wrap_bounds`: a finite number is wrapped into a finite one between zero and the
   divisor.
-/

namespace PulseSequencer.Binary64

/-! ## Rounding -/

/-- If two numbers changed places, both would be at most halfway to the other's rounded number. -/
theorem Rounded.mono {n m r s : ℤ} (first : Rounded n r) (second : Rounded m s) (le : n ≤ m) :
    r ≤ s := by
  by_contra swapped
  have above : m < r := by
    by_contra reached
    exact swapped (second.le_of_le first.representable (not_lt.mp reached))
  have below : s < n := by
    by_contra reached
    exact swapped (first.ge_of_ge second.representable (not_lt.mp reached))
  have nearR := first.le_distance second.representable
  have nearS := second.le_distance first.representable
  rw [abs_of_neg (by omega), abs_of_pos (by omega)] at nearR
  rw [abs_of_pos (by omega), abs_of_neg (by omega)] at nearS
  obtain rfl : n = m := by omega
  exact swapped (first.unique second).le

/-- Two numerators in order are rounded to whole numbers in order. -/
theorem nearestEven_mono_left {n m d : ℕ} (positive : 0 < d) (le : n ≤ m) :
    nearestEven n d ≤ nearestEven m d := by
  by_contra swapped
  have low := neg_abs_le ((n : ℤ) - (nearestEven n d * d : ℕ))
  have high := le_abs_self ((m : ℤ) - (nearestEven m d * d : ℕ))
  have nearN := (nearestEven_spec n positive).1
  have nearM := (nearestEven_spec m positive).1
  have apart := Nat.mul_le_mul_right d (not_le.mp swapped)
  rw [Nat.succ_mul] at apart
  -- Both are at the half between the two whole numbers.
  obtain rfl : n = m := by omega
  exact swapped le_rfl

theorem nearestEven_mono {n d m c : ℕ} (positiveD : 0 < d) (positiveC : 0 < c)
    (le : n * c ≤ m * d) : nearestEven n d ≤ nearestEven m c := by
  rw [← nearestEven_mul n d positiveC, ← nearestEven_mul m c positiveD, mul_comm c d]
  exact nearestEven_mono_left (Nat.mul_pos positiveD positiveC) le

/-! ## Ratios -/

section

variable {n d m c : ℕ} {e f : ℤ} {k t l u : ℕ}

/-- Ratios in order whose last places have one unit. -/
theorem Quantized.mantissa_mono (first : Quantized n d e k t) (second : Quantized m c f l t)
    (positiveD : 0 < d) (positiveC : 0 < c) (le : (n : ℚ) * 2 ^ e * c ≤ m * 2 ^ f * d) :
    k ≤ l := by
  rw [first.mantissa, second.mantissa]
  refine nearestEven_mono ?_ ?_ ?_
  · rw [Nat.shiftLeft_eq]
    positivity
  · rw [Nat.shiftLeft_eq]
    positivity
  · have power : (0 : ℚ) < 2 ^ t := by positivity
    rw [← Nat.cast_le (α := ℚ), ← mul_le_mul_iff_left₀ power]
    have numerators := shifted_ratio n t e
    have numerators' := shifted_ratio m t f
    rw [Nat.cast_mul, Nat.cast_mul, mul_right_comm, mul_right_comm _ _ ((2 : ℚ) ^ t), numerators,
      numerators', Nat.shiftLeft_eq, Nat.shiftLeft_eq]
    push_cast
    calc (n : ℚ) * 2 ^ e * 2 ^ (t - e).toNat * (c * 2 ^ (t - f).toNat)
        = n * 2 ^ e * c * (2 ^ (t - e).toNat * 2 ^ (t - f).toNat) := by ring
      _ ≤ m * 2 ^ f * d * (2 ^ (t - e).toNat * 2 ^ (t - f).toNat) :=
          mul_le_mul_of_nonneg_right le (by positivity)
      _ = m * 2 ^ f * 2 ^ (t - f).toNat * (d * 2 ^ (t - e).toNat) := by ring

/-- Ratios in order are rounded in order. A ratio with the smaller unit is the smaller one, except
at the power of two where the unit changes. -/
theorem Quantized.mono (first : Quantized n d e k t) (second : Quantized m c f l u)
    (positiveD : 0 < d) (positiveC : 0 < c) (le : (n : ℚ) * 2 ^ e * c ≤ m * 2 ^ f * d) :
    k * 2 ^ t ≤ l * 2 ^ u := by
  rcases lt_trichotomy t u with finer | rfl | coarser
  · calc k * 2 ^ t ≤ 2 ^ 53 * 2 ^ t := Nat.mul_le_mul_right _ first.small
      _ = 2 ^ 52 * 2 ^ (t + 1) := by ring
      _ ≤ 2 ^ 52 * 2 ^ u := Nat.mul_le_mul_left _ (Nat.pow_le_pow_right two_pos finer)
      _ ≤ l * 2 ^ u := Nat.mul_le_mul_right _ (second.full.resolve_left (by omega))
  · exact Nat.mul_le_mul_right _ (first.mantissa_mono second positiveD positiveC le)
  · have dPositive : (0 : ℚ) < d := by exact_mod_cast positiveD
    have cPositive : (0 : ℚ) < c := by exact_mod_cast positiveC
    have large := mul_le_mul_of_nonneg_right (first.large.resolve_left (by omega)) cPositive.le
    have small := mul_le_mul_of_nonneg_right second.bounded dPositive.le
    have units : 2 ^ 52 * 2 ^ t ≤ 2 ^ 53 * 2 ^ u := by
      have chain := (large.trans le).trans small
      rw [mul_assoc, mul_assoc _ (c : ℚ) d, mul_comm (c : ℚ)] at chain
      exact_mod_cast le_of_mul_le_mul_right chain (mul_pos dPositive cPositive)
    have next : t = u + 1 := by
      refine le_antisymm ?_ coarser
      rw [show 2 ^ 53 * 2 ^ u = 2 ^ 52 * 2 ^ (u + 1) by ring] at units
      exact (Nat.pow_le_pow_iff_right (by norm_num)).mp (Nat.le_of_mul_le_mul_left units (by simp))
    subst next
    have kSmall : k ≤ 2 ^ 52 := by
      refine first.le_of_le _ (le_of_mul_le_mul_right ((le.trans small).trans (le_of_eq ?_))
        cPositive)
      push_cast
      ring
    have lLarge : 2 ^ 53 ≤ l := by
      refine second.ge_of_ge _ (le_of_mul_le_mul_right ((le_of_eq ?_).trans (large.trans le))
        dPositive)
      push_cast
      ring
    calc k * 2 ^ (u + 1) ≤ 2 ^ 52 * 2 ^ (u + 1) := Nat.mul_le_mul_right _ kSmall
      _ = 2 ^ 53 * 2 ^ u := by ring
      _ ≤ l * 2 ^ u := Nat.mul_le_mul_right _ lLarge

theorem Quantized.steps_eq (quantized : Quantized n d e k t)
    (finite : (ofRatio false n d e).isFinite = true) :
    (ofRatio false n d e).steps = (k * 2 ^ t : ℕ) := by
  rw [quantized.assembled] at finite ⊢
  rcases assemble_spec false quantized.small quantized.full with ⟨_, same⟩ | ⟨infinite, _⟩
  · exact same
  · rw [infinite] at finite
    cases finite

end

/-! ## Operations -/

section

variable {x y z : Binary64}

/-- A product with a whole number that is not negative. -/
theorem mul_mono {k : ℕ} (whole : IsWhole k z) (le : x.steps ≤ y.steps)
    (finiteX : (x * z).isFinite = true) (finiteY : (y * z).isFinite = true) :
    (x * z).steps ≤ (y * z).steps := by
  have first := (mul_nearestTo (isFinite_of_mul finiteX).1 whole).rounded finiteX
  have second := (mul_nearestTo (isFinite_of_mul finiteY).1 whole).rounded finiteY
  exact first.mono second (mul_le_mul_of_nonneg_right le (Int.natCast_nonneg k))

theorem steps_of_isZero (zero : x.isZero = true) : x.isFinite = true ∧ x.steps = 0 := by
  obtain ⟨negative, rfl⟩ := eq_signedZero_of_isZero zero
  cases negative <;> exact ⟨rfl, rfl⟩

theorem steps_div_nonneg (nonneg : 0 ≤ x.steps) (finite : x.isFinite = true)
    (positive : 0 < z.steps) : 0 ≤ (x / z).steps := by
  rcases nonneg.eq_or_lt with zero | positiveX
  · exact (steps_of_isZero (isZero_div ((isZero_iff_steps finite).mpr zero.symm) positive)).2.ge
  · obtain ⟨n, d, e, quotient, _⟩ := div_eq_ofRatio positiveX positive
    rw [quotient]
    exact steps_ofRatio_nonneg n d e

/-- A quotient of a number that is not negative by a positive one. -/
theorem div_mono (nonneg : 0 ≤ x.steps) (positive : 0 < z.steps) (le : x.steps ≤ y.steps)
    (finite : y.isFinite = true) (finiteX : (x / z).isFinite = true)
    (finiteY : (y / z).isFinite = true) : (x / z).steps ≤ (y / z).steps := by
  rcases nonneg.eq_or_lt with zero | positiveX
  · exact (div_nonpos zero.symm.le positive).trans
      (steps_div_nonneg (nonneg.trans le) finite positive)
  · obtain ⟨n, d, e, quotientX, positiveD, leD, ratioX⟩ := div_eq_ofRatio positiveX positive
    obtain ⟨m, c, f, quotientY, positiveC, leC, ratioY⟩ :=
      div_eq_ofRatio (positiveX.trans_le le) positive
    obtain ⟨k, t, first⟩ := exists_quantized e positiveD leD
    obtain ⟨l, u, second⟩ := exists_quantized f positiveC leC
    rw [quotientX] at finiteX ⊢
    rw [quotientY] at finiteY ⊢
    rw [first.steps_eq finiteX, second.steps_eq finiteY]
    refine Int.ofNat_le.mpr (first.mono second positiveD positiveC ?_)
    have zPositive : (0 : ℚ) < z.steps := by exact_mod_cast positive
    have numerators : (x.steps : ℚ) ≤ y.steps := by exact_mod_cast le
    rw [← mul_le_mul_iff_left₀ zPositive]
    calc (n : ℚ) * 2 ^ e * c * z.steps = n * 2 ^ e * z.steps * c := mul_right_comm _ _ _
      _ = x.steps * (2 ^ 1074 * d * c) := by
          rw [ratioX, mul_assoc (x.steps : ℚ), mul_assoc (x.steps : ℚ)]
      _ ≤ y.steps * (2 ^ 1074 * d * c) := mul_le_mul_of_nonneg_right numerators (by positivity)
      _ = m * 2 ^ f * z.steps * d := by
          rw [ratioY, mul_right_comm _ (d : ℚ), mul_assoc (y.steps : ℚ), mul_assoc (y.steps : ℚ)]
      _ = m * 2 ^ f * d * z.steps := mul_right_comm _ _ _

/-- Rounding a number that is not negative to a whole number. -/
theorem round_mono (nonneg : 0 ≤ x.steps) (le : x.steps ≤ y.steps) (finiteX : x.isFinite = true)
    (finiteY : y.isFinite = true) : x.round.steps ≤ y.round.steps := by
  obtain ⟨k, wholeX, low, _⟩ := isWhole_round finiteX nonneg
  obtain ⟨l, wholeY, _, high⟩ := isWhole_round finiteY (nonneg.trans le)
  have positive := two_pow_pos 1074
  rw [wholeX.2, wholeY.2]
  generalize (2 : ℤ) ^ 1074 = second at *
  have less : (k : ℤ) * (2 * second) < (l + 1) * (2 * second) := by linarith only [low, high, le]
  have order := lt_of_mul_lt_mul_right less (by omega)
  exact mul_le_mul_of_nonneg_right (by omega) positive.le

end

/-! ## Remainders -/

section

variable {x y : Binary64}

/-- A number nearest to one between two finite numbers is between them. -/
theorem NearestTo.between {n : ℤ} {z : Binary64} (nearestTo : NearestTo n z) (ge : x.steps ≤ n)
    (le : n ≤ y.steps) : z.isFinite = true ∧ x.steps ≤ z.steps ∧ z.steps ≤ y.steps := by
  have rounded := rounded_nearest n
  have low := rounded.le_of_le (representable_steps x) ge
  have high := rounded.ge_of_ge (representable_steps y) le
  have lowest := (abs_lt.mp (abs_steps_lt x)).1
  have highest := (abs_lt.mp (abs_steps_lt y)).2
  have finite := nearestTo.isFinite (abs_lt.mpr ⟨lowest.trans_le low, high.trans_lt highest⟩)
  rw [nearestTo.steps_eq finite]
  exact ⟨finite, low, high⟩

/-- Rounding a remainder does not take it past the divisor. -/
theorem mod_bounds (finite : x.isFinite = true) (positive : 0 < y.steps) :
    (x % y).isFinite = true ∧ -y.steps ≤ (x % y).steps ∧ (x % y).steps ≤ y.steps := by
  obtain ⟨n, f, canonicalY, rfl, nPositive⟩ := exists_finite_of_pos positive
  cases x with
  | nan => cases finite
  | infinite negative => cases finite
  | finite negative m e canonicalX =>
    generalize least : min e f = exponent
    have positiveDivisor : 0 < n <<< (f - exponent) := by
      rw [Nat.shiftLeft_eq]
      positivity
    generalize remainder : m <<< (e - exponent) % n <<< (f - exponent) = r
    have below : r * 2 ^ exponent ≤ n * 2 ^ f :=
      calc r * 2 ^ exponent ≤ n <<< (f - exponent) * 2 ^ exponent :=
            Nat.mul_le_mul_right _ (remainder ▸ (Nat.mod_lt _ positiveDivisor).le)
        _ = n * 2 ^ f := by
            rw [Nat.shiftLeft_eq, mul_assoc, ← pow_add, Nat.sub_add_cancel (by omega)]
    have value : (signed negative r : ℚ) * 2 ^ (exponent : ℤ)
        = (signed negative (r * 2 ^ exponent) : ℤ) := by
      rw [signed_eq_mul, signed_eq_mul, zpow_natCast]
      push_cast
      ring
    have quotient : Binary64.finite negative m e canonicalX % .finite false n f canonicalY
        = ofRatio negative r 1 exponent := by
      show mod _ _ = _
      rw [mod, if_neg nPositive.ne', ← remainder, ← least]
    obtain ⟨low, high⟩ := abs_le.mp ((abs_signed negative _).trans_le (Int.ofNat_le.mpr below))
    rw [quotient, ← steps_neg]
    refine (ofRatio_nearestTo value).between ?_ high
    rw [steps_neg]
    exact low

/-- A finite number is wrapped into a finite one, and not past the divisor. -/
theorem wrap_bounds (finite : x.isFinite = true) (positive : 0 < y.steps) :
    (x.wrap y).isFinite = true ∧ 0 ≤ (x.wrap y).steps ∧ (x.wrap y).steps ≤ y.steps := by
  obtain ⟨finiteMod, low, high⟩ := mod_bounds finite positive
  have zero : (0 : Binary64).steps = 0 := rfl
  unfold wrap
  dsimp only
  split
  · next negative =>
    have below := (lt_iff_steps finiteMod rfl).mp negative
    have sum := add_nearestTo finiteMod ((isFinite_abs y).trans (isFinite_of_pos positive))
    rw [steps_abs, abs_of_pos positive] at sum
    rw [zero] at below
    refine sum.between (x := 0) ?_ ?_ <;> omega
  · next nonneg =>
    rw [lt_iff_steps finiteMod rfl, zero] at nonneg
    exact ⟨finiteMod, not_lt.mp nonneg, high⟩

end

end PulseSequencer.Binary64

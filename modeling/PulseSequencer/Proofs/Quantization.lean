import PulseSequencer.Tuning
import PulseSequencer.Proofs.Binary64.Monotone
import PulseSequencer.Proofs.Binary64.Rational
import PulseSequencer.Proofs.Clock
import PulseSequencer.Proofs.Results

/-!
# Quantization

Frequencies, amplitudes and durations are checked against their range, scaled so that the upper
bound is full scale, and rounded to a whole number. Scaling rounds too, but stays less than a half
above full scale, so that neither the limit to full scale nor the value in place of a missing whole
number ever shows.

Results:
1. `Scale.quantizes`: what follows from that for any quantity and any scale.
2. `quantizers_exact`: the words of frequencies, amplitudes, durations and phases.
-/

namespace PulseSequencer

open Binary64

namespace Binary64

theorem rational_eq_cast (x : Binary64) : x.rational = x.steps / ((2 ^ 1074 : ℤ) : ℚ) := by
  rw [rational_eq, Int.cast_pow, Int.cast_ofNat]

theorem rational_le_iff {x y : Binary64} : x.rational ≤ y.rational ↔ x.steps ≤ y.steps := by
  have second : (0 : ℚ) < 2 ^ 1074 := by positivity
  rw [rational_eq, rational_eq, div_le_div_iff_of_pos_right second, Int.cast_le]

theorem within_zero_iff {high x : Binary64} (finiteHigh : high.isFinite = true) :
    Within 0 high x ↔ x.isFinite = true ∧ 0 ≤ x.steps ∧ x.steps ≤ high.steps := by
  constructor
  · intro within
    have finite := isFinite_of_within rfl finiteHigh within
    exact ⟨finite, (le_iff_steps rfl finite).mp within.1,
      (le_iff_steps finite finiteHigh).mp within.2⟩
  · rintro ⟨finite, nonneg, le⟩
    exact ⟨(le_iff_steps rfl finite).mpr nonneg, (le_iff_steps finite finiteHigh).mpr le⟩

theorem within_signedZero {high : Binary64} (finiteHigh : high.isFinite = true)
    (nonneg : 0 ≤ high.steps) (negative : Bool) : Within 0 high (signedZero negative) := by
  have zero : (signedZero negative).steps = 0 := by cases negative <;> rfl
  rw [within_zero_iff finiteHigh, zero]
  exact ⟨rfl, le_rfl, nonneg⟩

theorem within_iff_rational {low high x : Binary64} (finiteLow : low.isFinite = true)
    (finiteHigh : high.isFinite = true) (finite : x.isFinite = true) :
    Within low high x ↔ low.rational ≤ x.rational ∧ x.rational ≤ high.rational := by
  rw [rational_le_iff, rational_le_iff, ← le_iff_steps finiteLow finite,
    ← le_iff_steps finite finiteHigh, Within]

/-- `n` is the whole number nearest to `z`, and the rounded number is `n` as it is. -/
structure RoundsTo (z : Binary64) (n : ℕ) : Prop where
  finite : z.round.isFinite = true
  exact : z.round.rational = n
  near : |z.rational - n| ≤ 1 / 2

/-- Where a number is less than a half above full scale, its rounding never exceeds full scale. -/
theorem exists_roundsTo {z : Binary64} {fullScale : ℕ} (finite : z.isFinite = true)
    (nonneg : 0 ≤ z.steps) (below : 2 * z.steps < (2 * fullScale + 1) * 2 ^ 1074) (missing : ℕ) :
    ∃ n ≤ fullScale, IsWhole n z.round ∧ RoundsTo z n ∧
      min (z.round.toNat?.getD missing) fullScale = n := by
  obtain ⟨n, whole, low, high⟩ := isWhole_round finite nonneg
  have fits : n ≤ fullScale := by
    by_contra above
    have power := two_pow_pos 1074
    generalize (2 : ℤ) ^ 1074 = second at *
    have more := mul_le_mul_of_nonneg_right (Int.ofNat_le.mpr (not_le.mp above)) power.le
    push_cast at more
    linarith only [more, low, below]
  refine ⟨n, fits, whole, ⟨whole.1, ?_, ?_⟩, ?_⟩
  · rw [rational_eq, whole.2, Int.cast_mul, Int.cast_pow, Int.cast_ofNat, Int.cast_natCast,
      mul_div_cancel_right₀ _ (by positivity)]
  · have power := two_pow_pos 1074
    rw [rational_eq_cast, abs_le, neg_le_sub_iff_le_add, sub_le_iff_le_add]
    generalize (2 : ℤ) ^ 1074 = second at *
    have positive : (0 : ℚ) < second := by exact_mod_cast power
    have lowQ : (n : ℚ) * (2 * second) ≤ 2 * z.steps + second := by exact_mod_cast low
    have highQ : 2 * z.steps + second < ((n : ℚ) + 1) * (2 * second) := by exact_mod_cast high
    rw [div_add' _ _ _ positive.ne', le_div_iff₀ positive, div_le_iff₀ positive]
    constructor <;> linarith
  · rw [toNat?_of_isWhole whole]
    exact min_eq_left fits

end Binary64

/-! ## Ranges -/

namespace Quantity

variable {quantity : Quantity} {x : Binary64}

theorem check_of_notFinite (notFinite : x.isFinite = false) :
    quantity.check x = .error (.notFinite quantity.name x) := by
  rw [check, notFinite]
  rfl

theorem check_of_outside (finite : x.isFinite = true)
    (outside : ¬ Within quantity.low quantity.high x) :
    quantity.check x = .error (.outOfRange quantity x) := by
  rw [check, if_pos finite, checkRange, dif_neg outside]

theorem check_eq_notFinite_iff :
    quantity.check x = .error (.notFinite quantity.name x) ↔ x.isFinite = false := by
  refine ⟨fun refused => ?_, check_of_notFinite⟩
  by_contra finite
  rw [Bool.not_eq_false] at finite
  by_cases within : Within quantity.low quantity.high x
  · obtain ⟨evidence, ok⟩ := quantity.check_total finite within
    cases ok.symm.trans refused
  · cases (check_of_outside finite within).symm.trans refused

theorem check_eq_outOfRange_iff :
    quantity.check x = .error (.outOfRange quantity x) ↔
      x.isFinite = true ∧ ¬ Within quantity.low quantity.high x := by
  refine ⟨fun refused => ?_, fun refused => check_of_outside refused.1 refused.2⟩
  have finite : x.isFinite = true := by
    by_contra notFinite
    rw [Bool.not_eq_true] at notFinite
    cases (check_of_notFinite notFinite).symm.trans refused
  refine ⟨finite, fun within => ?_⟩
  obtain ⟨evidence, ok⟩ := quantity.check_total finite within
  cases ok.symm.trans refused

/-- A value that passes the check is scaled, rounded and limited to full scale. -/
def word (quantity : Quantity) (scaled : Binary64 → Binary64) (fullScale missing : ℕ)
    (x : Binary64) : Except RangeError ℕ :=
  (quantity.check x).map fun _ => min ((scaled x).round.toNat?.getD missing) fullScale

end Quantity

/-! ## Scales -/

/-- `word` refuses what is not finite and what is outside of the range of the quantity, each with an
error of its own. It takes the values in the range to whole numbers in their order, from zero to
full scale, and each is the scaled value rounded, with nothing cut off. -/
structure Quantizes (quantity : Quantity) (scaled : Binary64 → Binary64) (fullScale : ℕ)
    (word : Binary64 → Except RangeError ℕ) : Prop where
  notFinite : ∀ x, word x = .error (.notFinite quantity.name x) ↔ x.isFinite = false
  outOfRange : ∀ x, word x = .error (.outOfRange quantity x) ↔ x.isFinite = true ∧
    ¬ (quantity.low.rational ≤ x.rational ∧ x.rational ≤ quantity.high.rational)
  accepted : ∀ x, x.isFinite = true → quantity.low.rational ≤ x.rational →
    x.rational ≤ quantity.high.rational →
    ∃ n ≤ fullScale, word x = .ok n ∧ RoundsTo (scaled x) n
  mono : ∀ x y m n, word x = .ok m → word y = .ok n → x.rational ≤ y.rational → m ≤ n
  zero : ∀ negative, word (signedZero negative) = .ok 0
  full : word quantity.high = .ok fullScale

/-- A scale keeps the order of the values from zero to `high` and takes both ends to numbers that
round to zero and to full scale. -/
structure Scale (high : Binary64) (scaled : Binary64 → Binary64) (fullScale : ℕ) : Prop where
  finiteHigh : high.isFinite = true
  highNonneg : 0 ≤ high.steps
  finite : ∀ x, Within 0 high x → (scaled x).isFinite = true
  mono : ∀ x y, Within 0 high x → Within 0 high y → x.steps ≤ y.steps →
    (scaled x).steps ≤ (scaled y).steps
  zero : ∀ negative, (scaled (signedZero negative)).steps = 0
  above : (2 * fullScale - 1) * 2 ^ 1074 < 2 * (scaled high).steps
  below : 2 * (scaled high).steps < (2 * fullScale + 1) * 2 ^ 1074

namespace Scale

variable {high : Binary64} {scaled : Binary64 → Binary64} {fullScale : ℕ}

theorem within_high (scale : Scale high scaled fullScale) : Within 0 high high :=
  (within_zero_iff scale.finiteHigh).mpr ⟨scale.finiteHigh, scale.highNonneg, le_rfl⟩

theorem steps_nonneg (scale : Scale high scaled fullScale) {x : Binary64}
    (within : Within 0 high x) : 0 ≤ (scaled x).steps := by
  rw [← scale.zero false]
  exact scale.mono _ _ (within_signedZero scale.finiteHigh scale.highNonneg false) within
    ((within_zero_iff scale.finiteHigh).mp within).2.1

/-- The whole number that a value in the range stands for. -/
theorem exists_word (scale : Scale high scaled fullScale) {x : Binary64}
    (within : Within 0 high x) (missing : ℕ) :
    ∃ n ≤ fullScale, IsWhole n (scaled x).round ∧ RoundsTo (scaled x) n ∧
      min ((scaled x).round.toNat?.getD missing) fullScale = n := by
  refine exists_roundsTo (scale.finite x within) (scale.steps_nonneg within) ?_ missing
  have le := scale.mono _ _ within scale.within_high
    ((within_zero_iff scale.finiteHigh).mp within).2.2
  exact (mul_le_mul_of_nonneg_left le two_pos.le).trans_lt scale.below

section

variable {quantity : Quantity} (low : quantity.low = 0)
  (scale : Scale quantity.high scaled fullScale) (missing : ℕ)

include low

theorem within_of_word {x : Binary64} {n : ℕ}
    (ok : quantity.word scaled fullScale missing x = .ok n) : Within 0 quantity.high x := by
  obtain ⟨evidence, _, _⟩ := Except.map_eq_ok_iff.mp ok
  exact low ▸ evidence.down

include scale

theorem word_of_within {x : Binary64} (within : Within 0 quantity.high x) :
    ∃ n ≤ fullScale, quantity.word scaled fullScale missing x = .ok n ∧
      IsWhole n (scaled x).round ∧ RoundsTo (scaled x) n := by
  obtain ⟨n, fits, whole, rounds, limited⟩ := scale.exists_word within missing
  obtain ⟨evidence, ok⟩ := quantity.check_total (isFinite_of_within rfl scale.finiteHigh within)
    (low.symm ▸ within)
  refine ⟨n, fits, ?_, whole, rounds⟩
  rw [Quantity.word, ok, ← limited]
  rfl

theorem word_mono {x y : Binary64} {m n : ℕ}
    (okX : quantity.word scaled fullScale missing x = .ok m)
    (okY : quantity.word scaled fullScale missing y = .ok n) (le : x.steps ≤ y.steps) : m ≤ n := by
  have withinX := within_of_word low missing okX
  have withinY := within_of_word low missing okY
  obtain ⟨m', _, okX', wholeX, _⟩ := word_of_within low scale missing withinX
  obtain ⟨n', _, okY', wholeY, _⟩ := word_of_within low scale missing withinY
  obtain rfl : m' = m := Except.ok.inj (okX'.symm.trans okX)
  obtain rfl : n' = n := Except.ok.inj (okY'.symm.trans okY)
  have rounded := round_mono (scale.steps_nonneg withinX) (scale.mono x y withinX withinY le)
    (scale.finite x withinX) (scale.finite y withinY)
  rw [wholeX.2, wholeY.2] at rounded
  exact_mod_cast le_of_mul_le_mul_right rounded (two_pow_pos 1074)

theorem word_zero (negative : Bool) :
    quantity.word scaled fullScale missing (signedZero negative) = .ok 0 := by
  obtain ⟨n, _, ok, _, rounds⟩ :=
    word_of_within low scale missing
      (within_signedZero scale.finiteHigh scale.highNonneg negative)
  have near := rounds.near
  rw [rational_eq, scale.zero negative, Int.cast_zero, zero_div, zero_sub, abs_neg, Nat.abs_cast]
    at near
  have small : (n : ℚ) < 1 := near.trans_lt (by norm_num)
  obtain rfl : n = 0 := Nat.lt_one_iff.mp (by exact_mod_cast small)
  exact ok

theorem word_high : quantity.word scaled fullScale missing quantity.high = .ok fullScale := by
  obtain ⟨n, fits, ok, _, rounds⟩ := word_of_within low scale missing scale.within_high
  have near := (abs_le.mp rounds.near).2
  have above : (2 * fullScale - 1 : ℚ) / 2 < (scaled quantity.high).rational := by
    have scaledHigh := scale.above
    have power := two_pow_pos 1074
    rw [rational_eq_cast]
    generalize (2 : ℤ) ^ 1074 = second at *
    rw [lt_div_iff₀ (by exact_mod_cast power), div_mul_eq_mul_div, div_lt_iff₀ two_pos,
      mul_comm _ (2 : ℚ)]
    exact_mod_cast scaledHigh
  have large : (fullScale : ℚ) < n + 1 := by linarith
  obtain rfl : n = fullScale := le_antisymm fits (Nat.lt_succ_iff.mp (by exact_mod_cast large))
  exact ok

theorem quantizes :
    Quantizes quantity scaled fullScale (quantity.word scaled fullScale missing) := by
  have finiteLow : quantity.low.isFinite = true := low ▸ rfl
  have within_iff {x : Binary64} (finite : x.isFinite = true) :=
    within_iff_rational finiteLow scale.finiteHigh finite
  constructor
  case notFinite =>
    intro x
    rw [Quantity.word, Except.map_eq_error_iff, Quantity.check_eq_notFinite_iff]
  case outOfRange =>
    intro x
    rw [Quantity.word, Except.map_eq_error_iff, Quantity.check_eq_outOfRange_iff]
    exact and_congr_right fun finite => not_congr (within_iff finite)
  case accepted =>
    intro x finite atLeast atMost
    have within := low ▸ (within_iff finite).mpr ⟨atLeast, atMost⟩
    obtain ⟨n, fits, ok, _, rounds⟩ := word_of_within low scale missing within
    exact ⟨n, fits, ok, rounds⟩
  case mono =>
    intro x y m n okX okY le
    exact word_mono low scale missing okX okY (rational_le_iff.mp le)
  case zero => exact word_zero low scale missing
  case full => exact word_high low scale missing

end

end Scale

/-! ## Fractions of full scale -/

namespace Binary64

variable {x y : Binary64} {n : ℕ}

/-- A number between zero and one, times full scale. -/
theorem mul_ofNat_bounds (small : n < 2 ^ 53) (finite : x.isFinite = true) (nonneg : 0 ≤ x.steps)
    (le : x.steps ≤ 2 ^ 1074) :
    (x * ofNat n).isFinite = true ∧ 0 ≤ (x * ofNat n).steps ∧
      (x * ofNat n).steps ≤ n * 2 ^ 1074 := by
  have whole := isWhole_ofNat small
  have product := mul_le_mul_of_nonneg_right le (Int.natCast_nonneg n)
  rw [mul_comm (2 ^ 1074), ← whole.2] at product
  rw [← whole.2]
  exact (mul_nearestTo finite whole).between (x := 0) (mul_nonneg nonneg (Int.natCast_nonneg n))
    product

/-- One times full scale. -/
theorem steps_mul_ofNat (small : n < 2 ^ 53) (finite : x.isFinite = true)
    (one : x.steps = 2 ^ 1074) : (x * ofNat n).steps = n * 2 ^ 1074 := by
  have whole := isWhole_ofNat small
  have product := mul_nearestTo finite whole
  rw [one, mul_comm, ← whole.2] at product
  rw [← whole.2]
  exact (product.eq_of_representable (representable_steps _) (abs_steps_lt _)).2

/-- A number that does not exceed `y` is a fraction of it. -/
theorem div_bounds (finite : x.isFinite = true) (nonneg : 0 ≤ x.steps) (positive : 0 < y.steps)
    (le : x.steps ≤ y.steps) :
    (x / y).isFinite = true ∧ 0 ≤ (x / y).steps ∧ (x / y).steps ≤ 2 ^ 1074 := by
  rcases nonneg.eq_or_lt with zero | positiveX
  · obtain ⟨finiteQuotient, stepsZero⟩ :=
      steps_of_isZero (isZero_div ((isZero_iff_steps finite).mpr zero.symm) positive)
    rw [stepsZero]
    exact ⟨finiteQuotient, le_rfl, (two_pow_pos 1074).le⟩
  · have one : ((2 ^ 1074 : ℕ) : ℤ) = 2 ^ 1074 := by rw [Nat.cast_pow, Nat.cast_ofNat]
    rw [← one]
    refine div_le positiveX positive ?_ ?_ ?_
    · rw [one]
      exact representable_two_pow 1074
    · rw [one]
      exact two_pow_lt (by decide)
    · rw [one, mul_comm]
      exact mul_le_mul_of_nonneg_left le (two_pow_pos 1074).le

end Binary64

/-- Fractions between zero and one, times full scale. -/
theorem scale_of_fraction {high : Binary64} {fraction : Binary64 → Binary64} {fullScale : ℕ}
    (small : fullScale < 2 ^ 53) (finiteHigh : high.isFinite = true) (highNonneg : 0 ≤ high.steps)
    (bounds : ∀ x, Within 0 high x → (fraction x).isFinite = true ∧ 0 ≤ (fraction x).steps ∧
      (fraction x).steps ≤ 2 ^ 1074)
    (mono : ∀ x y, Within 0 high x → Within 0 high y → x.steps ≤ y.steps →
      (fraction x).steps ≤ (fraction y).steps)
    (zero : ∀ negative, (fraction (signedZero negative)).steps = 0)
    (one : (fraction high).steps = 2 ^ 1074) :
    Scale high (fun x => fraction x * ofNat fullScale) fullScale := by
  have finite (x) (within : Within 0 high x) :
      (fraction x * ofNat fullScale).isFinite = true := by
    obtain ⟨finite, nonneg, le⟩ := bounds x within
    exact (mul_ofNat_bounds small finite nonneg le).1
  have positive := two_pow_pos 1074
  have highScaled := steps_mul_ofNat small (isFinite_of_pos (one ▸ positive)) one
  refine ⟨finiteHigh, highNonneg, finite, ?_, ?_, ?_, ?_⟩
  · intro x y withinX withinY le
    exact mul_mono (isWhole_ofNat small) (mono x y withinX withinY le) (finite x withinX)
      (finite y withinY)
  · intro negative
    have within := within_signedZero finiteHigh highNonneg negative
    have product := mul_nearestTo (bounds _ within).1 (isWhole_ofNat small)
    rw [zero, zero_mul] at product
    exact (product.rounded (finite _ within)).eq_zero_iff.mpr rfl
  · rw [highScaled]
    generalize (2 : ℤ) ^ 1074 = second at *
    linarith
  · rw [highScaled]
    generalize (2 : ℤ) ^ 1074 = second at *
    linarith

namespace Tuning

theorem scale_amplitude :
    Scale amplitude.high (fun x => x * ofNat (2 ^ 16 - 1)) (2 ^ 16 - 1) := by
  have one : amplitude.high.steps = 2 ^ 1074 := by decide +kernel
  have positive := two_pow_pos 1074
  refine scale_of_fraction (by norm_num) rfl (one ▸ positive.le) ?_ ?_ ?_ one
  · intro x within
    rw [← one]
    exact (within_zero_iff rfl).mp within
  · exact fun _ _ _ _ le => le
  · intro negative
    cases negative <;> rfl

theorem scale_frequency :
    Scale frequency.high (fun x => x / maxFrequency * ofNat (2 ^ 32 - 1)) (2 ^ 32 - 1) := by
  have positive : 0 < maxFrequency.steps := by decide +kernel
  have finite : maxFrequency.isFinite = true := by decide +kernel
  have bounds (x) (within : Within 0 frequency.high x) :
      (x / maxFrequency).isFinite = true ∧ 0 ≤ (x / maxFrequency).steps ∧
        (x / maxFrequency).steps ≤ 2 ^ 1074 := by
    obtain ⟨finite, nonneg, le⟩ := (within_zero_iff finite).mp within
    exact div_bounds finite nonneg positive le
  refine scale_of_fraction (by norm_num) finite positive.le bounds ?_ ?_ ?_
  · intro x y withinX withinY le
    exact div_mono ((within_zero_iff finite).mp withinX).2.1 positive le
      ((within_zero_iff finite).mp withinY).1 (bounds x withinX).1 (bounds y withinY).1
  · intro negative
    exact (steps_of_isZero (isZero_div (by cases negative <;> rfl) positive)).2
  · decide +kernel

theorem quantize_lt (bits : ℕ) (fraction : Binary64) : quantize bits fraction < 2 ^ bits := by
  have le : quantize bits fraction ≤ 1 <<< bits - 1 := min_le_right _ _
  rw [Nat.one_shiftLeft] at le
  have := Nat.two_pow_pos bits
  omega

/-- Words have room for full scale. -/
theorem word_frequency :
    (fun x => (frequencyWord x).map UInt32.toNat)
      = frequency.word (fun x => x / maxFrequency * ofNat (2 ^ 32 - 1)) (2 ^ 32 - 1)
        (2 ^ 32 - 1) := by
  funext x
  unfold frequencyWord Quantity.word
  cases frequency.check x with
  | error e => rfl
  | ok evidence => exact congrArg Except.ok (UInt32.toNat_ofNat_of_lt' (quantize_lt 32 _))

theorem word_amplitude :
    (fun x => (amplitudeWord x).map UInt16.toNat)
      = amplitude.word (fun x => x * ofNat (2 ^ 16 - 1)) (2 ^ 16 - 1) (2 ^ 16 - 1) := by
  funext x
  unfold amplitudeWord Quantity.word
  cases amplitude.check x with
  | error e => rfl
  | ok evidence => exact congrArg Except.ok (UInt16.toNat_ofNat_of_lt' (quantize_lt 16 _))

/-- A phase is a fraction of a full turn, once it is wrapped. -/
theorem exists_phaseWord {radians : Binary64} (finite : radians.isFinite = true) :
    ∃ n ≤ 4095, (phaseWord radians).map UInt16.toNat = .ok n ∧
      RoundsTo (radians.wrap fullTurn / fullTurn * ofNat 4095) n := by
  have positive : 0 < fullTurn.steps := by decide +kernel
  obtain ⟨finiteTurn, nonnegTurn, leTurn⟩ := wrap_bounds finite positive
  obtain ⟨finiteFraction, nonnegFraction, leOne⟩ :=
    div_bounds finiteTurn nonnegTurn positive leTurn
  obtain ⟨finiteScaled, nonneg, le⟩ :=
    mul_ofNat_bounds (n := 4095) (by norm_num) finiteFraction nonnegFraction leOne
  have below : 2 * (radians.wrap fullTurn / fullTurn * ofNat 4095).steps
      < (2 * (4095 : ℕ) + 1) * 2 ^ 1074 := by
    have power := two_pow_pos 1074
    generalize (2 : ℤ) ^ 1074 = second at *
    push_cast at le ⊢
    linarith
  obtain ⟨n, fits, _, rounds, limited⟩ := exists_roundsTo finiteScaled nonneg below 4095
  have narrow : n < 2 ^ 16 := by omega
  refine ⟨n, fits, ?_, rounds⟩
  rw [phaseWord, if_pos finite, ← UInt16.toNat_ofNat_of_lt' narrow, ← limited]
  rfl

end Tuning

namespace Clock

theorem scale_ticks : Scale timeStep.high (fun x => x / tick) maxTicks := by
  have finiteHigh : maxDuration.isFinite = true := by decide +kernel
  have highNonneg : 0 ≤ maxDuration.steps := by decide +kernel
  have quotientZero {x : Binary64} (zero : x.isZero = true) :=
    steps_of_isZero (isZero_div zero tick_pos)
  have finite (x) (within : Within 0 maxDuration x) : (x / tick).isFinite = true := by
    obtain ⟨finite, nonneg, le⟩ := (within_zero_iff finiteHigh).mp within
    rcases nonneg.eq_or_lt with zero | positive
    · exact (quotientZero ((isZero_iff_steps finite).mpr zero.symm)).1
    · refine (div_tick_le (n := 32 * maxTicks + 15) positive (by decide) ?_).1
      push_cast
      exact (mul_le_mul_of_nonneg_left le (by norm_num)).trans maxDuration_le
  refine ⟨finiteHigh, highNonneg, finite, ?_, ?_, ?_, ?_⟩
  · intro x y withinX withinY le
    exact div_mono ((within_zero_iff finiteHigh).mp withinX).2.1 tick_pos le
      ((within_zero_iff finiteHigh).mp withinY).1 (finite x withinX) (finite y withinY)
  · intro negative
    exact (quotientZero (by cases negative <;> rfl)).2
  · decide +kernel
  · decide +kernel

theorem word_ticks : ticks = timeStep.word (fun x => x / tick) maxTicks 0 := by
  funext x
  unfold ticks Quantity.word
  cases timeStep.check x <;> rfl

end Clock

/-- The words of frequencies, amplitudes and durations follow their values in order from zero to
full scale, and neither they nor the words of phases are ever limited. -/
theorem quantizers_exact :
    Quantizes Tuning.frequency (fun x => x / Tuning.maxFrequency * ofNat (2 ^ 32 - 1)) (2 ^ 32 - 1)
      (fun x => (Tuning.frequencyWord x).map UInt32.toNat) ∧
    Quantizes Tuning.amplitude (fun x => x * ofNat (2 ^ 16 - 1)) (2 ^ 16 - 1)
      (fun x => (Tuning.amplitudeWord x).map UInt16.toNat) ∧
    Quantizes Clock.timeStep (fun x => x / Clock.tick) Clock.maxTicks Clock.ticks ∧
    ∀ radians : Binary64, radians.isFinite = true →
      ∃ n ≤ 4095, (Tuning.phaseWord radians).map UInt16.toNat = .ok n ∧
        RoundsTo (radians.wrap Tuning.fullTurn / Tuning.fullTurn * ofNat 4095) n := by
  refine ⟨?_, ?_, ?_, fun radians finite => Tuning.exists_phaseWord finite⟩
  · rw [Tuning.word_frequency]
    exact Tuning.scale_frequency.quantizes rfl _
  · rw [Tuning.word_amplitude]
    exact Tuning.scale_amplitude.quantizes rfl _
  · rw [Clock.word_ticks]
    exact Clock.scale_ticks.quantizes rfl _

/-- A phase of one radian in the negative direction is 3443 parts of 4095 into the turn. -/
theorem quantizers_exact_negativePhase :
    (-1 : Binary64).isFinite = true ∧ (Tuning.phaseWord (-1)).map UInt16.toNat = .ok 3443 ∧
      RoundsTo ((-1 : Binary64).wrap Tuning.fullTurn / Tuning.fullTurn * ofNat 4095) 3443 := by
  have word : (Tuning.phaseWord (-1)).map UInt16.toNat = .ok 3443 := by rfl
  obtain ⟨n, _, ok, rounds⟩ := quantizers_exact.2.2.2 (-1) rfl
  obtain rfl : n = 3443 := Except.ok.inj (ok.symm.trans word)
  exact ⟨rfl, ok, rounds⟩

end PulseSequencer

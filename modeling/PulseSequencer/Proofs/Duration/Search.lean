import PulseSequencer.Proofs.Binary64.Quotient
import PulseSequencer.Proofs.Duration.Division
import PulseSequencer.Proofs.Duration.Overflow

/-!
# Division finds the quotient

A division starts at a rounded quotient and moves down or up until the exact remainder is right. Far
from the largest number the remainder of every candidate is computed without an overflow. The start
is off by at most one, so a second candidate is the last one.

Results:
1. `Divisible.tryQuotient_cases`: a trial tells which way the number of parts lies.
2. `Divisible.near_of_start`: the start is off by at most one.
3. `Divisible.exists_search`: the search takes one step at most, and it ends at the number of parts.
4. `Holds.divide?`, `holds_of_divide`: what a division reports is that number.
-/

namespace PulseSequencer.Duration

open Binary64

/-! ## Trials -/

/-- A duration and a part that are far from the largest number. -/
structure Divisible (d : Duration) (seconds : Binary64) : Prop where
  finite : d.Finite
  positive : 0 < seconds.steps
  small : |d.exactSteps| ≤ safe
  part : seconds.steps ≤ safe

/-- A duration holds `count` parts of `seconds`, and less than one part more. -/
structure Holds (d : Duration) (seconds : Binary64) (count : ℕ) : Prop where
  finite : d.Finite
  fits : count ≤ maxCount
  low : count * seconds.steps ≤ d.exactSteps
  high : d.exactSteps < (count + 1) * seconds.steps

theorem le_of_fits {quotient : ℕ} (fits : quotient ≤ maxCount) : (quotient : ℤ) + 1 ≤ 2 ^ 32 := by
  unfold maxCount at fits
  omega

theorem finite_ofSeconds {seconds : Binary64} (finite : seconds.isFinite = true) :
    (ofSeconds seconds).Finite := by
  intro x present
  obtain rfl := List.mem_singleton.mp present
  exact finite

namespace Divisible

variable {d : Duration} {seconds : Binary64} {quotient : ℕ}

theorem finite_parts (divisible : Divisible d seconds) (fits : quotient ≤ maxCount)
    (parts : quotient * seconds.steps ≤ 3 * safe) :
    ((ofSeconds seconds).scaleBy (ofNat quotient)).Finite ∧
    ((ofSeconds seconds).scaleBy (ofNat quotient)).exactSteps = quotient * seconds.steps := by
  have below := le_of_fits fits
  have whole : IsWhole quotient (ofNat quotient) := isWhole_ofNat (by omega)
  have small : |(quotient : ℤ)| < 2 ^ 32 := by
    rw [Nat.abs_cast]
    omega
  have finite : ((ofSeconds seconds).scaleBy (ofNat quotient)).Finite := by
    refine finite_scaleBy whole small (finite_ofSeconds (isFinite_of_pos divisible.positive)) ?_
    rw [exactSteps_ofSeconds, mul_comm seconds.steps,
      abs_of_nonneg (mul_nonneg (Int.natCast_nonneg _) divisible.positive.le), ← safe_mul]
    linarith [safe_pos]
  refine ⟨finite, ?_⟩
  rw [(scaleBy_spec whole small finite).2, exactSteps_ofSeconds, mul_comm]

/-- What remains after a number of parts is computed without an overflow. -/
theorem finite_rest (divisible : Divisible d seconds) (fits : quotient ≤ maxCount)
    (parts : quotient * seconds.steps ≤ 3 * safe) :
    (-((ofSeconds seconds).scaleBy (ofNat quotient)) + d).Finite ∧
    (-((ofSeconds seconds).scaleBy (ofNat quotient)) + d).exactSteps
      = d.exactSteps - quotient * seconds.steps := by
  obtain ⟨finiteParts, exactParts⟩ := divisible.finite_parts fits parts
  have finite : (-((ofSeconds seconds).scaleBy (ofNat quotient)) + d).Finite := by
    refine finite_add (finite_neg.mpr finiteParts) divisible.finite ?_
    rw [exactSteps_neg, abs_neg, exactParts,
      abs_of_nonneg (mul_nonneg (Int.natCast_nonneg _) divisible.positive.le), ← safe_mul]
    linarith [divisible.small, safe_pos]
  refine ⟨finite, ?_⟩
  rw [(add_spec finite).2.2, exactSteps_neg, exactParts]
  ring

/-- Both comparisons of a remainder are decided by the exact remainder. -/
theorem compare_rest {rest : Duration} (positive : 0 < seconds.steps) (part : seconds.steps ≤ safe)
    (finite : rest.Finite) (small : |rest.exactSteps| ≤ 4 * safe) :
    (rest.value < 0 ↔ rest.exactSteps < 0) ∧
    (0 ≤ (-ofSeconds seconds + rest).value ↔ seconds.steps ≤ rest.exactSteps) := by
  have finiteLess : (-ofSeconds seconds + rest).Finite := by
    refine finite_add (finite_neg.mpr (finite_ofSeconds (isFinite_of_pos positive))) finite ?_
    rw [exactSteps_neg, abs_neg, exactSteps_ofSeconds, abs_of_pos positive, ← safe_mul]
    linarith [safe_pos]
  obtain ⟨_, _, less⟩ := add_spec finiteLess
  rw [exactSteps_neg, exactSteps_ofSeconds] at less
  have finiteValue : (-ofSeconds seconds + rest).value.isFinite = true := by
    refine isFinite_value finiteLess ?_
    have sum := abs_add_le (-seconds.steps) rest.exactSteps
    rw [abs_neg, abs_of_pos positive, ← less] at sum
    rw [← safe_mul]
    linarith [safe_pos]
  have finiteRest : rest.value.isFinite = true := by
    refine isFinite_value finite ?_
    rw [← safe_mul]
    linarith [safe_pos]
  refine ⟨value_lt_zero_iff finiteRest, ?_⟩
  rw [zero_le_value_iff finiteValue, less, neg_add_eq_sub, sub_nonneg]

theorem tryQuotient_cases (divisible : Divisible d seconds) (fits : quotient ≤ maxCount)
    (parts : quotient * seconds.steps ≤ 3 * safe) :
    tryQuotient d (ofSeconds seconds) quotient = .tooLarge ∧
      d.exactSteps < quotient * seconds.steps ∨
    tryQuotient d (ofSeconds seconds) quotient = .tooSmall ∧
      (quotient + 1) * seconds.steps ≤ d.exactSteps ∨
    ∃ rest, tryQuotient d (ofSeconds seconds) quotient = .exact rest ∧ Holds d seconds quotient ∧
      rest.Finite ∧ rest.exactSteps = d.exactSteps - quotient * seconds.steps := by
  obtain ⟨finite, exactly⟩ := divisible.finite_rest fits parts
  have nonneg : 0 ≤ quotient * seconds.steps :=
    mul_nonneg (Int.natCast_nonneg _) divisible.positive.le
  unfold tryQuotient
  dsimp only
  generalize -((ofSeconds seconds).scaleBy (ofNat quotient)) + d = rest at finite exactly ⊢
  obtain ⟨negative, atLeast⟩ := compare_rest divisible.positive divisible.part finite (by
    rw [exactly]
    refine (abs_sub _ _).trans ?_
    rw [abs_of_nonneg nonneg]
    linarith [divisible.small])
  rw [exactly] at negative atLeast
  by_cases above : d.exactSteps < quotient * seconds.steps
  · exact .inl ⟨if_pos (negative.mpr (by linarith)), above⟩
  · rw [if_neg (mt negative.mp (by linarith))]
    by_cases below : (quotient + 1) * seconds.steps ≤ d.exactSteps
    · exact .inr (.inl ⟨if_pos (atLeast.mpr (by linarith)), below⟩)
    · rw [if_neg (mt atLeast.mp (by linarith))]
      exact .inr (.inr ⟨rest, rfl,
        ⟨divisible.finite, fits, not_lt.mp above, not_le.mp below⟩, finite, exactly⟩)

end Divisible

/-! ## The start -/

/-- A start of 32 bits belongs to a value below `2 ^ 32` parts. -/
theorem lt_counts_of_start {x y : Binary64} {quotient : ℕ} (positive : 0 < y.steps)
    (start : IsWhole quotient (x / y).floor) (fits : quotient ≤ maxCount) :
    x.steps < 2 ^ 32 * y.steps := by
  rcases le_or_gt x.steps 0 with nonpos | above
  · linarith
  · have small := le_of_fits fits
    obtain ⟨_, high⟩ := floor_div_bounds above positive (isFinite_of_isWhole_floor start) start
      (by omega)
    exact high.trans_le (mul_le_mul_of_nonneg_right small positive.le)

namespace Divisible

variable {d : Duration} {seconds : Binary64} {quotient : ℕ}

theorem isFinite_value (divisible : Divisible d seconds) : d.value.isFinite = true := by
  refine Duration.isFinite_value divisible.finite ?_
  rw [← safe_mul]
  linarith [divisible.small, safe_pos]

/-- The start is zero for a duration that is not positive. -/
theorem start_eq_zero (divisible : Divisible d seconds)
    (start : IsWhole quotient (d.value / seconds).floor) (nonpos : d.exactSteps ≤ 0) :
    quotient = 0 := by
  have below := div_nonpos ((rounded_value divisible.isFinite_value).nonpos nonpos)
    divisible.positive
  have same := start.unique (isWhole_floor (isFinite_of_isWhole_floor start))
  have := Int.ediv_le_ediv (two_pow_pos 1074) below
  rw [← same, Int.zero_ediv] at this
  omega

/-- The start is off by at most one. -/
theorem near_of_start (divisible : Divisible d seconds) (fits : quotient ≤ maxCount)
    (start : IsWhole quotient (d.value / seconds).floor) :
    quotient * seconds.steps ≤ |d.exactSteps| + seconds.steps ∧
    d.exactSteps < (quotient + 2) * seconds.steps := by
  have positive := divisible.positive
  have rounded := rounded_value divisible.isFinite_value
  rcases le_or_gt d.exactSteps 0 with nonpos | above
  · rw [divisible.start_eq_zero start nonpos]
    have := abs_nonneg d.exactSteps
    constructor <;> push_cast <;> linarith
  · have below := le_of_fits fits
    obtain ⟨low, high⟩ := floor_div_bounds (rounded.pos_iff.mpr above) positive
      (isFinite_of_isWhole_floor start) start (by omega)
    have bound : ((quotient : ℤ) + 1) * seconds.steps ≤ 2 ^ 32 * seconds.steps :=
      mul_le_mul_of_nonneg_right below positive.le
    have error := rounded.two_pow_mul_error_le
    rw [abs_of_pos above] at error ⊢
    obtain ⟨errorLow, errorHigh⟩ := abs_le.mp (le_refl |d.exactSteps - d.value.steps|)
    constructor <;> linarith

theorem exists_start (divisible : Divisible d seconds) (nonneg : 0 ≤ d.exactSteps)
    (less : d.value.steps < 2 ^ 32 * seconds.steps) :
    ∃ quotient ≤ maxCount, IsWhole quotient (d.value / seconds).floor := by
  have second := two_pow_pos 1074
  have rounded := rounded_value divisible.isFinite_value
  obtain ⟨finite, nonnegQuotient, small⟩ : (d.value / seconds).isFinite = true ∧
      0 ≤ (d.value / seconds).steps ∧ (d.value / seconds).steps < 2 ^ 32 * 2 ^ 1074 := by
    rcases nonneg.eq_or_lt with zero | above
    · obtain ⟨negative, same⟩ := eq_signedZero_of_isZero (isZero_div
        ((isZero_iff_steps divisible.isFinite_value).mpr (rounded.eq_zero_iff.mpr zero.symm))
        divisible.positive)
      rw [same]
      exact ⟨rfl, by cases negative <;> exact le_rfl,
        by cases negative <;> exact mul_pos (by norm_num) second⟩
    · exact div_lt_counts (rounded.pos_iff.mpr above) divisible.positive less
  obtain ⟨k, same⟩ := Int.eq_ofNat_of_zero_le (Int.ediv_nonneg nonnegQuotient second.le)
  refine ⟨k, ?_, same ▸ isWhole_floor finite⟩
  have below := Int.ediv_lt_of_lt_mul second small
  rw [same] at below
  unfold maxCount
  omega

end Divisible

/-! ## The search -/

/-- Tries a candidate that is a number of seconds like the parts. -/
def judge (d part : Duration) (candidate : Binary64) : Verdict :=
  let rest := -(part.scaleBy candidate) + d
  if rest.value < 0 then .tooLarge
  else if 0 ≤ (-part + rest).value then .tooSmall
  else .exact rest

/-- The search from a candidate: the candidates that are tried one after the other, and what is
reported in the end. A candidate is lowered or raised by one without a look at the earlier ones. -/
inductive Correction (d part : Duration) : Binary64 → List Binary64 → Option (ℕ × Duration) → Prop
  | outside {candidate : Binary64} :
      ¬ Within 0 (ofNat maxCount) candidate → Correction d part candidate [candidate] none
  | found {candidate : Binary64} {count : ℕ} {rest : Duration} :
      Within 0 (ofNat maxCount) candidate → judge d part candidate = .exact rest →
      candidate.toNat? = some count → Correction d part candidate [candidate] (some (count, rest))
  | lower {candidate : Binary64} {later : List Binary64} {result : Option (ℕ × Duration)} :
      Within 0 (ofNat maxCount) candidate → judge d part candidate = .tooLarge →
      Correction d part (candidate - 1) later result →
      Correction d part candidate (candidate :: later) result
  | raise {candidate : Binary64} {later : List Binary64} {result : Option (ℕ × Duration)} :
      Within 0 (ofNat maxCount) candidate → judge d part candidate = .tooSmall →
      Correction d part (candidate + 1) later result →
      Correction d part candidate (candidate :: later) result

section

variable {d : Duration} {seconds candidate : Binary64}

theorem fusedMulAdd_signedZero (sign : Bool) {m e : ℕ} (canonical : Canonical m e)
    (negative : Bool) :
    (Binary64.finite sign m e canonical).fusedMulAdd (signedZero negative)
      (-signedZero (sign != negative)) = signedZero false := by
  show ofSum _ _ _ _ _ _ = _
  rw [ofSum_eq (x := 0) (y := 0) (by cases sign <;> cases negative <;> simp [signed])
    (by cases sign <;> cases negative <;> simp [signed]), if_pos (add_zero 0)]
  cases sign <;> cases negative <;> rfl

theorem scaleBy_signedZero (finite : seconds.isFinite = true) (negative : Bool) :
    (ofSeconds seconds).scaleBy (signedZero negative) = ofSeconds (signedZero false) := by
  cases seconds with
  | nan => cases finite
  | infinite _ => cases finite
  | finite sign m e canonical =>
    have product : Binary64.finite sign m e canonical * signedZero negative
        = signedZero (sign != negative) := rfl
    show (zero.push _).push (Binary64.finite sign m e canonical * signedZero negative) = _
    rw [product, fusedMulAdd_signedZero]
    cases sign <;> cases negative <;> rfl

/-- Zero of either sign is the same candidate. -/
theorem judge_eq {k : ℕ} (finite : seconds.isFinite = true) (whole : IsWhole k candidate)
    (fits : k ≤ maxCount) :
    judge d (ofSeconds seconds) candidate = tryQuotient d (ofSeconds seconds) k := by
  have below := le_of_fits fits
  have natural : IsWhole k (ofNat k) := isWhole_ofNat (by omega)
  have same : (ofSeconds seconds).scaleBy candidate = (ofSeconds seconds).scaleBy (ofNat k) := by
    rcases (sameNumber_iff_steps whole.1 natural.1).mpr (whole.2.trans natural.2.symm)
      with rfl | ⟨zero, zeroNat⟩
    · rfl
    · obtain ⟨negative, rfl⟩ := eq_signedZero_of_isZero zero
      obtain ⟨other, same⟩ := eq_signedZero_of_isZero zeroNat
      rw [same, scaleBy_signedZero finite negative, scaleBy_signedZero finite other]
  unfold judge tryQuotient
  rw [same]

theorem within_iff {k : ℤ} (whole : IsWhole k candidate) :
    Within 0 (ofNat maxCount) candidate ↔ 0 ≤ k ∧ k ≤ maxCount := by
  have second := two_pow_pos 1074
  have natural : IsWhole maxCount (ofNat maxCount) := isWhole_ofNat (by decide)
  unfold Within
  rw [le_iff_steps rfl whole.1, le_iff_steps whole.1 natural.1, whole.2, natural.2, steps_zero,
    mul_nonneg_iff_of_pos_right second, mul_le_mul_iff_left₀ second]

/-- Only whole numbers of 32 bits are tried. -/
theorem exists_whole_of_within {z : Binary64} (within : Within 0 (ofNat maxCount) z.floor) :
    ∃ k ≤ maxCount, IsWhole k z.floor := by
  have finite : z.floor.isFinite = true := isFinite_of_within rfl rfl within
  have whole : IsWhole (z.steps / 2 ^ 1074) z.floor := by
    refine isWhole_floor ?_
    cases z with
    | nan => exact finite
    | infinite _ => exact finite
    | finite => rfl
  obtain ⟨nonneg, fits⟩ := (within_iff whole).mp within
  obtain ⟨k, same⟩ := Int.eq_ofNat_of_zero_le nonneg
  rw [same] at whole fits
  exact ⟨k, by exact_mod_cast fits, whole⟩

end

/-- A quotient that is reported was searched for from a start of 32 bits. -/
theorem start_of_divide {d rest : Duration} {seconds : Binary64} {count : ℕ}
    (found : d.divide? seconds = some (count, rest)) :
    ∃ quotient ≤ maxCount, (d.value / seconds).floor.toNat? = some quotient := by
  unfold divide? at found
  simp only [bind] at found
  split at found
  · cases found
  · obtain ⟨quotient, start, found⟩ := Option.bind_eq_some_iff.mp found
    split at found
    · cases found
    · next fits => exact ⟨quotient, not_lt.mp fits, start⟩

theorem divide?_of_start {d : Duration} {seconds : Binary64} {quotient : ℕ}
    (positive : 0 < seconds.steps) (start : IsWhole quotient (d.value / seconds).floor)
    (fits : quotient ≤ maxCount) :
    d.divide? seconds = match tryQuotient d (ofSeconds seconds) quotient with
      | .exact rest => some (quotient, rest)
      | .tooLarge => lowerQuotient d (ofSeconds seconds) quotient
      | .tooSmall => raiseQuotient d (ofSeconds seconds) (maxCount - quotient) quotient := by
  have above : ¬ (ofSeconds seconds).value ≤ 0 := by
    show ¬ seconds ≤ 0
    rw [le_iff_steps (isFinite_of_pos positive) rfl, steps_zero, not_le]
    exact positive
  unfold divide?
  dsimp only
  rw [if_neg above, show (ofSeconds seconds).value = seconds from rfl, toNat?_of_isWhole start]
  exact if_neg (not_lt.mpr fits)

/-- What a division by `seconds` has to report. -/
def Answers (d : Duration) (seconds : Binary64) : Option (ℕ × Duration) → Prop
  | none => d.exactSteps < 0 ∨ 2 ^ 32 * seconds.steps ≤ d.value.steps
  | some (count, rest) => Holds d seconds count ∧ rest.Finite ∧
      rest.exactSteps = d.exactSteps - count * seconds.steps

/-- Every candidate after the first one is one less than the one before, or every one is one
more. -/
def OneWay (candidates : List Binary64) : Prop :=
  candidates.IsChain (fun x y => y = x - 1) ∨ candidates.IsChain (fun x y => y = x + 1)

/-- A search that takes at most one step, and reports what the division reports and has to. -/
structure Search (d : Duration) (seconds : Binary64) (candidates : List Binary64)
    (result : Option (ℕ × Duration)) : Prop where
  run : Correction d (ofSeconds seconds) (d.value / seconds).floor candidates result
  short : candidates.length ≤ 2
  oneWay : OneWay candidates
  reported : d.divide? seconds = result
  answers : Answers d seconds result

namespace Divisible

variable {d : Duration} {seconds : Binary64} {quotient : ℕ}

theorem search_outside (divisible : Divisible d seconds)
    (outside : ¬ ∃ quotient ≤ maxCount, IsWhole quotient (d.value / seconds).floor) :
    Search d seconds [(d.value / seconds).floor] none := by
  have nothing : d.divide? seconds = none := by
    refine Option.eq_none_iff_forall_ne_some.mpr fun ⟨count, rest⟩ found => outside ?_
    obtain ⟨quotient, fits, start⟩ := start_of_divide found
    exact ⟨quotient, fits, isWhole_of_toNat?_floor start⟩
  refine ⟨.outside (mt exists_whole_of_within outside), by simp, .inl (by simp), nothing, ?_⟩
  by_contra missing
  obtain ⟨nonneg, less⟩ := not_or.mp missing
  exact outside (divisible.exists_start (not_lt.mp nonneg) (not_le.mp less))

/-- A candidate of 32 bits is tried. -/
theorem judge_whole (divisible : Divisible d seconds) {candidate : Binary64}
    (whole : IsWhole quotient candidate) (fits : quotient ≤ maxCount) :
    Within 0 (ofNat maxCount) candidate ∧
    judge d (ofSeconds seconds) candidate = tryQuotient d (ofSeconds seconds) quotient :=
  ⟨(within_iff whole).mpr ⟨Int.natCast_nonneg _, by exact_mod_cast fits⟩,
    judge_eq (isFinite_of_pos divisible.positive) whole fits⟩

theorem search_lower (divisible : Divisible d seconds) (fits : quotient ≤ maxCount)
    (start : IsWhole quotient (d.value / seconds).floor)
    (verdict : tryQuotient d (ofSeconds seconds) quotient = .tooLarge)
    (above : d.exactSteps < quotient * seconds.steps) :
    ∃ result,
      Search d seconds [(d.value / seconds).floor, (d.value / seconds).floor - 1] result := by
  have small := le_of_fits fits
  obtain ⟨within, judged⟩ := divisible.judge_whole start fits
  have next := start.sub_one (by rw [abs_lt]; omega)
  have computed := divide?_of_start divisible.positive start fits
  rw [verdict] at judged computed
  cases quotient with
  | zero =>
    -- Zero parts are too many only for a negative duration.
    have outside : ¬ Within 0 (ofNat maxCount) ((d.value / seconds).floor - 1) := by
      rw [within_iff next]
      omega
    exact ⟨none, .lower within judged (.outside outside), by simp, .inl (by simp), computed,
      .inl (by simpa using above)⟩
  | succ quotient =>
    have nonneg : 0 ≤ d.exactSteps := by
      by_contra negative
      exact absurd (divisible.start_eq_zero start (by omega)) (Nat.succ_ne_zero _)
    obtain ⟨low, _⟩ := divisible.near_of_start fits start
    rw [abs_of_nonneg nonneg] at low
    rw [Nat.cast_add_one] at low above next
    rw [add_sub_cancel_right] at next
    have bound := (le_abs_self _).trans divisible.small
    obtain ⟨_, less⟩ | ⟨_, more⟩ | ⟨rest, exact_, answer⟩ :=
      divisible.tryQuotient_cases (show quotient ≤ maxCount by omega) (by linarith [safe_pos])
    · linarith
    · linarith
    · obtain ⟨withinNext, judgedNext⟩ := divisible.judge_whole next (by omega)
      have found : d.divide? seconds = some (quotient, rest) := by
        rw [computed, lowerQuotient, exact_]
      exact ⟨_, .lower within judged
        (.found withinNext (judgedNext.trans exact_) (toNat?_of_isWhole next)),
        by simp, .inl (by simp), found, answer⟩

theorem search_raise (divisible : Divisible d seconds) (fits : quotient ≤ maxCount)
    (start : IsWhole quotient (d.value / seconds).floor)
    (verdict : tryQuotient d (ofSeconds seconds) quotient = .tooSmall)
    (below : (quotient + 1) * seconds.steps ≤ d.exactSteps) :
    ∃ result,
      Search d seconds [(d.value / seconds).floor, (d.value / seconds).floor + 1] result := by
  have small := le_of_fits fits
  obtain ⟨within, judged⟩ := divisible.judge_whole start fits
  have next : IsWhole (quotient + 1 : ℕ) ((d.value / seconds).floor + 1) :=
    start.add_one (by rw [abs_lt]; omega)
  obtain ⟨_, high⟩ := divisible.near_of_start fits start
  have computed := divide?_of_start divisible.positive start fits
  rw [verdict] at judged computed
  cases room : maxCount - quotient with
  | zero =>
    -- The value of so long a duration would have started beyond 32 bits.
    have full : (quotient : ℤ) + 1 = 2 ^ 32 := by
      unfold maxCount at room
      omega
    rw [full] at below
    exact absurd (lt_counts_of_start divisible.positive start fits)
      ((rounded_value divisible.isFinite_value).le_of_le
        ((representable_steps seconds).mul_two_pow 32) below).not_gt
  | succ room =>
    have bound := (le_abs_self _).trans divisible.small
    have cast := Nat.cast_add_one (R := ℤ) quotient
    obtain ⟨_, less⟩ | ⟨_, more⟩ | ⟨rest, exact_, answer⟩ :=
      divisible.tryQuotient_cases (show quotient + 1 ≤ maxCount by omega)
        (by rw [cast]; linarith [safe_pos])
    · rw [cast] at less
      linarith
    · rw [cast] at more
      linarith
    · obtain ⟨withinNext, judgedNext⟩ := divisible.judge_whole next (by omega)
      have found : d.divide? seconds = some (quotient + 1, rest) := by
        rw [computed, room, raiseQuotient, exact_]
      exact ⟨_, .raise within judged
        (.found withinNext (judgedNext.trans exact_) (toNat?_of_isWhole next)),
        by simp, .inr (by simp), found, answer⟩

/-- The search takes one step at most, and it ends at the number of parts. -/
theorem exists_search (divisible : Divisible d seconds) :
    ∃ candidates result, Search d seconds candidates result := by
  by_cases inside : ∃ quotient ≤ maxCount, IsWhole quotient (d.value / seconds).floor
  · obtain ⟨quotient, fits, start⟩ := inside
    obtain ⟨low, _⟩ := divisible.near_of_start fits start
    obtain ⟨verdict, above⟩ | ⟨verdict, below⟩ | ⟨rest, verdict, answer⟩ :=
      divisible.tryQuotient_cases fits (by linarith [divisible.small, divisible.part, safe_pos])
    · exact ⟨_, divisible.search_lower fits start verdict above⟩
    · exact ⟨_, divisible.search_raise fits start verdict below⟩
    · obtain ⟨within, judged⟩ := divisible.judge_whole start fits
      have found : d.divide? seconds = some (quotient, rest) := by
        rw [divide?_of_start divisible.positive start fits, verdict]
      exact ⟨_, _, .found within (judged.trans verdict) (toNat?_of_isWhole start), by simp,
        .inl (by simp), found, answer⟩
  · exact ⟨_, _, divisible.search_outside inside⟩

theorem answers (divisible : Divisible d seconds) : Answers d seconds (d.divide? seconds) := by
  obtain ⟨_, _, search⟩ := divisible.exists_search
  exact search.reported ▸ search.answers

end Divisible

/-! ## Parts of any number -/

/-- A part whose multiples are too small to overflow. -/
structure Divisor (seconds : Binary64) : Prop where
  positive : 0 < seconds.steps
  room : 2 ^ 37 * seconds.steps ≤ 2 ^ overflow

section

variable {d rest : Duration} {seconds : Binary64} {count quotient : ℕ}

theorem Divisor.mul_le (divisor : Divisor seconds) (fits : quotient ≤ maxCount) :
    0 ≤ quotient * seconds.steps ∧ (quotient + 1) * seconds.steps ≤ 2 ^ 32 * seconds.steps :=
  ⟨mul_nonneg (Int.natCast_nonneg _) divisor.positive.le,
    mul_le_mul_of_nonneg_right (le_of_fits fits) divisor.positive.le⟩

theorem Divisor.mul_le_safe (divisor : Divisor seconds) : 2 ^ 32 * seconds.steps ≤ safe := by
  have room := divisor.room
  rw [← safe_mul] at room
  omega

theorem Holds.divisible (holds : Holds d seconds count) (divisor : Divisor seconds) :
    Divisible d seconds := by
  obtain ⟨nonneg, product⟩ := divisor.mul_le holds.fits
  have bound := divisor.mul_le_safe
  have positive := divisor.positive
  refine ⟨holds.finite, positive, ?_, by omega⟩
  rw [abs_of_nonneg (nonneg.trans holds.low)]
  linarith [holds.high]

theorem Holds.unique {other : ℕ} (positive : 0 < seconds.steps) (holds : Holds d seconds count)
    (others : Holds d seconds other) : count = other := by
  have first : (count : ℤ) < other + 1 :=
    lt_of_mul_lt_mul_right (holds.low.trans_lt others.high) positive.le
  have second : (other : ℤ) < count + 1 :=
    lt_of_mul_lt_mul_right (others.low.trans_lt holds.high) positive.le
  omega

/-- From any start the search ends at the number of parts. -/
theorem Holds.divide? (holds : Holds d seconds count) (divisor : Divisor seconds)
    (start : (d.value / seconds).floor.toNat? = some quotient) (fits : quotient ≤ maxCount) :
    ∃ rest, d.divide? seconds = some (count, rest) ∧
      rest.Finite ∧ rest.exactSteps = d.exactSteps - count * seconds.steps := by
  have divisible := holds.divisible divisor
  have answers := divisible.answers
  cases found : d.divide? seconds with
  | none =>
    rw [found] at answers
    have nonneg := (divisor.mul_le holds.fits).1.trans holds.low
    have less := lt_counts_of_start divisor.positive (isWhole_of_toNat?_floor start) fits
    exact absurd answers (not_or.mpr ⟨nonneg.not_gt, less.not_ge⟩)
  | some answer =>
    rw [found] at answers
    obtain ⟨others, remains⟩ := answers
    rw [holds.unique divisor.positive others]
    exact ⟨answer.2, rfl, remains⟩

theorem holds_of_divide (divisor : Divisor seconds)
    (found : d.divide? seconds = some (count, rest)) (finite : rest.Finite)
    (small : |rest.exactSteps| ≤ 2 ^ 32 * seconds.steps) : Holds d seconds count := by
  have remains := divide?_eq_some found
  obtain ⟨finiteD, sum⟩ := remains.exactSteps_eq finite
  have bound := divisor.mul_le_safe
  have positive := divisor.positive
  obtain ⟨negative, atLeast⟩ :=
    Divisible.compare_rest positive (by omega) finite (by linarith [safe_pos])
  have nonneg := not_lt.mp (mt negative.mpr remains.notNegative)
  have less := not_le.mp (mt atLeast.mpr remains.lessThanPart)
  exact ⟨finiteD, remains.fits, by linarith, by linarith⟩

end

end PulseSequencer.Duration

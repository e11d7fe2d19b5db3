import PulseSequencer.Proofs.Duration.Value

/-!
# Division of durations

A division reports a quotient only after trying it: what remains of the duration after that many
parts has been computed without rounding.

Results:
1. `divide?_eq_some`: a reported quotient has 32 bits and passed the trial.
2. `isFinite_of_divide`: only finite durations have a quotient.
3. `Remains.exactSteps_eq`: the parts and the remainder add up to the duration, exactly.
-/

namespace PulseSequencer.Duration

open Binary64

/-- `rest` remains of `d` after `quotient` parts, and it is neither negative nor a part or more. -/
structure Remains (d part : Duration) (quotient : ℕ) (rest : Duration) : Prop where
  fits : quotient ≤ maxCount
  same : rest = -(part.scaleBy (ofNat quotient)) + d
  notNegative : ¬ rest.value < 0
  lessThanPart : ¬ 0 ≤ (-part + rest).value

section

variable {d part rest : Duration} {quotient count : ℕ}

theorem remains_of_exact (fits : quotient ≤ maxCount)
    (exact_ : tryQuotient d part quotient = .exact rest) : Remains d part quotient rest := by
  unfold tryQuotient at exact_
  dsimp only at exact_
  split at exact_
  · cases exact_
  · next notNegative =>
    split at exact_
    · cases exact_
    · next lessThanPart =>
      cases exact_
      exact ⟨fits, rfl, notNegative, lessThanPart⟩

theorem remains_of_lower (fits : quotient ≤ maxCount)
    (found : lowerQuotient d part quotient = some (count, rest)) : Remains d part count rest := by
  induction quotient with
  | zero => cases found
  | succ quotient ih =>
    unfold lowerQuotient at found
    split at found
    · next exact_ =>
      cases found
      exact remains_of_exact (by omega) exact_
    · exact ih (by omega) found
    · cases found

theorem remains_of_raise {room : ℕ} (fits : quotient + room ≤ maxCount)
    (found : raiseQuotient d part room quotient = some (count, rest)) :
    Remains d part count rest := by
  induction room generalizing quotient with
  | zero => cases found
  | succ room ih =>
    unfold raiseQuotient at found
    split at found
    · next exact_ =>
      cases found
      exact remains_of_exact (by omega) exact_
    · exact ih (by omega) found
    · cases found

end

theorem divide?_eq_some {d rest : Duration} {seconds : Binary64} {count : ℕ}
    (found : d.divide? seconds = some (count, rest)) :
    Remains d (ofSeconds seconds) count rest := by
  unfold divide? at found
  simp only [bind] at found
  split at found
  · cases found
  · obtain ⟨quotient, _, found⟩ := Option.bind_eq_some_iff.mp found
    split at found
    · cases found
    · next fits =>
      rw [not_lt] at fits
      split at found
      · next exact_ =>
        cases found
        exact remains_of_exact fits exact_
      · exact remains_of_lower fits found
      · exact remains_of_raise (by omega) found

/-- Only finite values are divided. -/
theorem isFinite_of_divide {d rest : Duration} {seconds : Binary64} {count : ℕ}
    (found : d.divide? seconds = some (count, rest)) : d.value.isFinite = true := by
  unfold divide? at found
  simp only [bind] at found
  split at found
  · cases found
  · obtain ⟨quotient, whole, _⟩ := Option.bind_eq_some_iff.mp found
    generalize (ofSeconds seconds).value = part at whole
    cases value : d.value with
    | nan =>
      rw [value] at whole
      cases part <;> cases whole
    | infinite negative =>
      rw [value] at whole
      cases part <;> cases whole
    | finite => rfl

/-- The parts and what remains add up to the duration. -/
theorem Remains.exactSteps_eq {d rest : Duration} {seconds : Binary64} {count : ℕ}
    (remains : Remains d (ofSeconds seconds) count rest) (finite : rest.Finite) :
    d.Finite ∧ d.exactSteps = count * seconds.steps + rest.exactSteps := by
  have fits := remains.fits
  have same := remains.same
  subst same
  obtain ⟨finiteParts, finiteD, sum⟩ := add_spec finite
  have below : count < 2 ^ 32 := by
    unfold maxCount at fits
    omega
  obtain ⟨_, product⟩ := scaleBy_spec (isWhole_ofNat (by omega))
    (by rw [Nat.abs_cast]; exact_mod_cast below) (finite_neg.mp finiteParts)
  refine ⟨finiteD, ?_⟩
  rw [sum, exactSteps_neg, product, exactSteps_ofSeconds]
  ring

end PulseSequencer.Duration

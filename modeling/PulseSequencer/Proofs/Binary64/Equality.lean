import PulseSequencer.Binary64.Arithmetic

/-!
# Equality as numbers

Numbers have one form each, apart from the two zeros. So `numEq` is equality of numbers, up to the
sign of zero and without NaN (`numEq_iff`), and sums of equal numbers are equal.
-/

namespace PulseSequencer.Binary64

/-- The same number, where the two zeros count as one. -/
def SameNumber (x y : Binary64) : Prop :=
  x = y ∨ x.isZero = true ∧ y.isZero = true

namespace SameNumber

variable {x y z : Binary64}

theorem refl (x : Binary64) : SameNumber x x := .inl rfl

theorem symm (same : SameNumber x y) : SameNumber y x := by
  rcases same with rfl | ⟨zeroX, zeroY⟩
  · exact .refl x
  · exact .inr ⟨zeroY, zeroX⟩

theorem trans (first : SameNumber x y) (second : SameNumber y z) : SameNumber x z := by
  rcases first with rfl | ⟨zeroX, zeroY⟩
  · exact second
  · rcases second with rfl | ⟨_, zeroZ⟩
    · exact .inr ⟨zeroX, zeroY⟩
    · exact .inr ⟨zeroX, zeroZ⟩

end SameNumber

theorem eq_signedZero_of_isZero {x : Binary64} (zero : x.isZero = true) :
    ∃ negative, x = signedZero negative := by
  cases x with
  | nan => cases zero
  | infinite negative => cases zero
  | finite negative mantissa exponent canonical =>
    obtain rfl : mantissa = 0 := by simpa [isZero] using zero
    obtain rfl : exponent = 0 := by
      unfold Canonical at canonical
      omega
    exact ⟨negative, rfl⟩

/-- The mantissa and the exponent can be read off the position of a canonical number. -/
theorem canonical_inj {m n e f : Nat} (first : Canonical m e) (second : Canonical n f)
    (same : e <<< 52 + m = f <<< 52 + n) : m = n ∧ e = f := by
  unfold Canonical at first second
  omega

theorem canonical_lt {m e : Nat} (canonical : Canonical m e) : e <<< 52 + m < 2047 <<< 52 := by
  unfold Canonical at canonical
  omega

/-- What lies between finite numbers is finite. -/
theorem isFinite_of_within {low high x : Binary64} (finiteLow : low.isFinite = true)
    (finiteHigh : high.isFinite = true) (within : Within low high x) : x.isFinite = true := by
  obtain ⟨above, below⟩ := within
  change ble low x = true at above
  change ble x high = true at below
  cases low with
  | nan => cases finiteLow
  | infinite _ => cases finiteLow
  | finite a m e canonical =>
    cases high with
    | nan => cases finiteHigh
    | infinite _ => cases finiteHigh
    | finite b n f canonical' =>
      have := canonical_lt canonical
      have := canonical_lt canonical'
      cases x with
      | nan => simp [ble, rank] at above
      | infinite negative =>
        simp only [ble, rank, signed, decide_eq_true_eq] at above below
        split at below <;> split at above <;> split at below <;> omega
      | finite => rfl

/-- Equal positions belong to the same number. -/
theorem sameNumber_of_rank {x y : Binary64} {position : Int} (first : x.rank = some position)
    (second : y.rank = some position) : SameNumber x y := by
  cases x with
  | nan => cases first
  | infinite a =>
    cases y with
    | nan => cases second
    | infinite b =>
      left
      simp only [rank, Option.some.injEq] at first second
      cases a <;> cases b <;> simp [signed] at first second ⊢ <;> omega
    | finite b n f canonical =>
      simp only [rank, Option.some.injEq] at first second
      have := canonical_lt canonical
      cases a <;> cases b <;> simp only [signed] at first second <;> grind
  | finite a m e canonical =>
    cases y with
    | nan => cases second
    | infinite b =>
      simp only [rank, Option.some.injEq] at first second
      have := canonical_lt canonical
      cases a <;> cases b <;> simp only [signed] at first second <;> grind
    | finite b n f canonical' =>
      simp only [rank, Option.some.injEq] at first second
      by_cases zero : m = 0
      · subst zero
        right
        have : e = 0 := by
          unfold Canonical at canonical
          omega
        refine ⟨rfl, ?_⟩
        have : n = 0 := by
          cases a <;> cases b <;> simp only [signed] at first second <;> grind
        simp [isZero, this]
      · left
        have positions : a = b ∧ e <<< 52 + m = f <<< 52 + n := by
          cases a <;> cases b <;> simp only [signed] at first second <;> grind
        obtain ⟨rfl, positions⟩ := positions
        obtain ⟨rfl, rfl⟩ := canonical_inj canonical canonical' positions
        rfl

theorem rank_eq_none_iff {x : Binary64} : x.rank = none ↔ x = .nan := by
  cases x <;> simp [rank]

theorem SameNumber.rank_eq {x y : Binary64} (same : SameNumber x y) : x.rank = y.rank := by
  rcases same with rfl | ⟨zeroX, zeroY⟩
  · rfl
  · obtain ⟨a, rfl⟩ := eq_signedZero_of_isZero zeroX
    obtain ⟨b, rfl⟩ := eq_signedZero_of_isZero zeroY
    cases a <;> cases b <;> rfl

/-- Numbers compare equal if they are the same number and not NaN. -/
theorem numEq_iff {x y : Binary64} : x.numEq y = true ↔ x ≠ .nan ∧ SameNumber x y := by
  constructor
  · intro equal
    unfold numEq at equal
    split at equal
    · next a b first second =>
      obtain rfl : a = b := by simpa using equal
      refine ⟨fun isNan => ?_, sameNumber_of_rank first second⟩
      rw [rank_eq_none_iff.mpr isNan] at first
      cases first
    · cases equal
  · rintro ⟨notNan, same⟩
    obtain ⟨position, found⟩ := Option.ne_none_iff_exists'.mp (mt rank_eq_none_iff.mp notNan)
    simp [numEq, ← same.rank_eq, found]

/-! ## Sums -/

theorem SameNumber.neg {x y : Binary64} (same : SameNumber x y) : SameNumber (-x) (-y) := by
  rcases same with rfl | ⟨zeroX, zeroY⟩
  · exact .refl _
  · obtain ⟨a, rfl⟩ := eq_signedZero_of_isZero zeroX
    obtain ⟨b, rfl⟩ := eq_signedZero_of_isZero zeroY
    exact .inr ⟨rfl, rfl⟩

/-- The sign of a zero matters to a sum only if the sum is zero itself. -/
theorem ofSum_zero_left (a b c : Bool) (n : Nat) (f : Int) :
    SameNumber (ofSum a 0 0 c n f) (ofSum b 0 0 c n f) := by
  have zero : ∀ negative, signed negative 0 = 0 := by
    intro negative
    cases negative <;> rfl
  unfold ofSum
  simp only [Nat.zero_shiftLeft, zero]
  split
  · exact .inr ⟨rfl, rfl⟩
  · exact .refl _

theorem ofSum_zero_right (a b c : Bool) (n : Nat) (f : Int) :
    SameNumber (ofSum c n f a 0 0) (ofSum c n f b 0 0) := by
  have zero : ∀ negative, signed negative 0 = 0 := by
    intro negative
    cases negative <;> rfl
  unfold ofSum
  simp only [Nat.zero_shiftLeft, zero]
  split
  · exact .inr ⟨rfl, rfl⟩
  · exact .refl _

theorem SameNumber.add_left {x y : Binary64} (same : SameNumber x y) (z : Binary64) :
    SameNumber (x + z) (y + z) := by
  rcases same with rfl | ⟨zeroX, zeroY⟩
  · exact .refl _
  · obtain ⟨a, rfl⟩ := eq_signedZero_of_isZero zeroX
    obtain ⟨b, rfl⟩ := eq_signedZero_of_isZero zeroY
    cases z with
    | nan => exact .refl _
    | infinite negative => exact .refl _
    | finite negative m e canonical => exact ofSum_zero_left a b negative m e

theorem SameNumber.add_right {y z : Binary64} (x : Binary64) (same : SameNumber y z) :
    SameNumber (x + y) (x + z) := by
  rcases same with rfl | ⟨zeroY, zeroZ⟩
  · exact .refl _
  · obtain ⟨a, rfl⟩ := eq_signedZero_of_isZero zeroY
    obtain ⟨b, rfl⟩ := eq_signedZero_of_isZero zeroZ
    cases x with
    | nan => exact .refl _
    | infinite negative => exact .refl _
    | finite negative m e canonical => exact ofSum_zero_right a b negative m e

theorem SameNumber.sub {x x' y y' : Binary64} (first : SameNumber x x')
    (second : SameNumber y y') : SameNumber (x - y) (x' - y') :=
  (first.add_left (-y)).trans (.add_right x' second.neg)

end PulseSequencer.Binary64

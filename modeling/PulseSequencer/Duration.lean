import PulseSequencer.Binary64.Arithmetic
import PulseSequencer.Decimal.Format

/-!
# Durations

A duration is a sum of products of the seconds that the author of a sequence wrote down. Adding
those as binary64 numbers gives different results for different groupings, and the duration of a
sequence would depend on how it was nested. So a duration keeps the unrounded sum as a list of
partial sums and rounds only when its value is read.

* `push` adds one number without rounding: each step replaces two numbers by their rounded sum and
  the error of that sum, which is a number again.
* `value` is the sum rounded to nearest, a tie to even.
* `divide?` splits a duration into a whole number of equal parts and an exact remainder.
-/

namespace PulseSequencer

/-! ## Seconds -/

/-- The order of seconds. A NaN is level with everything. -/
def Seconds.compare (x y : Binary64) : Ordering :=
  if x < y then .lt else if y < x then .gt else .eq

/-- Seconds on their own are written with a digit after the point, and with an exponent below `1e-4`
and from `1e16` on. -/
def Seconds.format : Decimal.Format :=
  { keepFraction := true, scientific := fun place => place ≤ -4 || 17 ≤ place }

namespace Duration

/-! ## Partial sums -/

/-- The rounded sum of two numbers and its error, exact if `y` is not the larger one. -/
def fastTwoSum (x y : Binary64) : Binary64 × Binary64 :=
  let high := x + y
  (high, y - (high - x))

/-- Adds `x` to partial sums that increase in magnitude, without rounding. Errors of zero are
dropped. -/
def pushPartial : List Binary64 → Binary64 → List Binary64
  | [], x => [x]
  | y :: rest, x =>
    let (high, low) := if x.abs < y.abs then fastTwoSum y x else fastTwoSum x y
    if low.isZero then pushPartial rest high else low :: pushPartial rest high

/-- The lists of partial sums that arise by adding numbers one at a time, and their negations. -/
inductive Grown : List Binary64 → Prop
  | nil : Grown []
  | push {partials : List Binary64} (x : Binary64) :
      Grown partials → Grown (pushPartial partials x)
  | neg {partials : List Binary64} : Grown partials → Grown (partials.map Binary64.neg)

end Duration

/-- An unrounded sum of seconds, as partial sums of increasing magnitude. -/
structure Duration where
  partials : List Binary64
  grown : Duration.Grown partials

namespace Duration

def zero : Duration := ⟨[], .nil⟩

instance : Inhabited Duration := ⟨zero⟩

def push (d : Duration) (x : Binary64) : Duration :=
  ⟨pushPartial d.partials x, .push x d.grown⟩

def ofSeconds (seconds : Binary64) : Duration :=
  zero.push seconds

def add (d e : Duration) : Duration :=
  e.partials.foldl push d

instance : Add Duration := ⟨add⟩

def neg (d : Duration) : Duration :=
  ⟨d.partials.map Binary64.neg, .neg d.grown⟩

instance : Neg Duration := ⟨neg⟩

/-- The product with a whole number. The rounding error of each product is a number, which the fused
product recovers. -/
def scaleBy (d : Duration) (factor : Binary64) : Duration :=
  d.partials.foldl
    (fun product x =>
      let high := x * factor
      (product.push (x.fusedMulAdd factor (-high))).push high)
    zero

/-- `d` repeated `times` times. -/
def scale (d : Duration) (times : UInt32) : Duration :=
  d.scaleBy (Binary64.ofNat times.toNat)

/-! ## Reading the value -/

/-- Corrects a sum `high` with remainder `low`: a remainder of exactly half a step is rounded away
from even when the partial sum below it has the same sign. -/
def nudge (high low : Binary64) : List Binary64 → Binary64
  | [] => high
  | next :: _ =>
    if (low < 0 ∧ next < 0) ∨ (0 < low ∧ 0 < next) then
      let step := low * 2
      let moved := high + step
      if step.numEq (moved - high) then moved else high
    else high

/-- The rounded sum of `high` and partial sums that decrease in magnitude. The first remainder that
is not zero decides the rounding. -/
def roundFrom (high : Binary64) : List Binary64 → Binary64
  | [] => high
  | y :: rest =>
    let (high, low) := fastTwoSum high y
    if low.isZero then roundFrom high rest else nudge high low rest

/-- The sum rounded to the nearest number of seconds, a tie to even. -/
def value (d : Duration) : Binary64 :=
  match d.partials.reverse with
  | [] => 0
  | top :: rest => roundFrom top rest

def isZero (d : Duration) : Bool :=
  d.value.isZero

/-- Equal sums may be held in different partial sums, so durations are compared by value. -/
instance : BEq Duration := ⟨fun d e => d.value.numEq e.value⟩

/-! ## Division -/

/-- Counts of repetitions have 32 bits. -/
def maxCount : Nat := 1 <<< 32 - 1

/-- What the exact remainder says of a candidate quotient. -/
inductive Verdict where
  | tooLarge
  | tooSmall
  | exact (rest : Duration)

/-- Tries `quotient` parts of length `part`: the remainder has to lie in `[0, part)`. -/
def tryQuotient (d part : Duration) (quotient : Nat) : Verdict :=
  let rest := -(part.scaleBy (Binary64.ofNat quotient)) + d
  if rest.value < 0 then .tooLarge
  else if 0 ≤ (-part + rest).value then .tooSmall
  else .exact rest

/-- Lowers a quotient that is too large. -/
def lowerQuotient (d part : Duration) : Nat → Option (Nat × Duration)
  | 0 => none
  | quotient + 1 =>
    match tryQuotient d part quotient with
    | .exact rest => some (quotient, rest)
    | .tooLarge => lowerQuotient d part quotient
    | .tooSmall => none

/-- Raises a quotient that is too small, at most `room` times. -/
def raiseQuotient (d part : Duration) : Nat → Nat → Option (Nat × Duration)
  | 0, _ => none
  | room + 1, quotient =>
    match tryQuotient d part (quotient + 1) with
    | .exact rest => some (quotient + 1, rest)
    | .tooSmall => raiseQuotient d part room (quotient + 1)
    | .tooLarge => none

/-- The number of parts of `seconds` in a duration and the exact remainder in `[0, seconds)`. None
if the number of parts does not fit 32 bits or `seconds` is not positive. -/
def divide? (d : Duration) (seconds : Binary64) : Option (Nat × Duration) := do
  let part := ofSeconds seconds
  if part.value ≤ 0 then none
  else
    -- The rounded quotient is off by at most one.
    let quotient ← (d.value / part.value).floor.toNat?
    if maxCount < quotient then none
    else
      match tryQuotient d part quotient with
      | .exact rest => some (quotient, rest)
      | .tooLarge => lowerQuotient d part quotient
      | .tooSmall => raiseQuotient d part (maxCount - quotient) quotient

end Duration

end PulseSequencer

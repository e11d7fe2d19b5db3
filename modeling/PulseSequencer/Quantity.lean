import PulseSequencer.Decimal.Format

/-!
# Physical quantities and their ranges

A quantity that crosses the wire to a board has a closed range of valid values. Values outside of it
are refused, never clamped.
-/

namespace PulseSequencer

/-- Numbers in messages are written out in full, without an exponent. -/
def messageFormat : Decimal.Format :=
  { keepFraction := false, scientific := fun _ => false }

/-- A named quantity with its unit and its range, both bounds included. -/
structure Quantity where
  name : String
  unit : String
  low : Binary64
  high : Binary64

/-- Why a value is refused. -/
inductive RangeError where
  | outOfRange (quantity : Quantity) (value : Binary64)
  | notFinite (name : String) (value : Binary64)

def RangeError.message : RangeError → String
  | .outOfRange quantity value =>
    let value := messageFormat.text value
    let low := messageFormat.text quantity.low
    let high := messageFormat.text quantity.high
    let unit := quantity.unit
    s!"{quantity.name} of {value} {unit} outside valid range of {low} to {high} {unit}"
  | .notFinite name value =>
    s!"{name} must be a finite number, got {messageFormat.text value}"

namespace Quantity

/-- Evidence that `value` lies in the range of the quantity. -/
def checkRange (quantity : Quantity) (value : Binary64) :
    Except RangeError (PLift (Binary64.Within quantity.low quantity.high value)) :=
  if within : Binary64.Within quantity.low quantity.high value then .ok ⟨within⟩
  else .error (.outOfRange quantity value)

/-- As `checkRange`, where NaN and the infinities are refused with an error of their own. -/
def check (quantity : Quantity) (value : Binary64) :
    Except RangeError (PLift (Binary64.Within quantity.low quantity.high value)) :=
  if value.isFinite then quantity.checkRange value
  else .error (.notFinite quantity.name value)

end Quantity

end PulseSequencer

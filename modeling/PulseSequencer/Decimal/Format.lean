import PulseSequencer.Decimal.Shortest

/-!
# Decimal text of a number

A number is written with its shortest decimal. A format says whether a whole number keeps a zero
after the point and for which magnitudes an exponent is written.
-/

namespace PulseSequencer.Decimal

/-- How a decimal is laid out. `scientific place` says whether a number whose point stands after
`place` digits is written with an exponent. -/
structure Format where
  keepFraction : Bool
  scientific : Int → Bool

private def zeros (n : Nat) : List Char :=
  List.replicate n '0'

/-- The decimal with its point in place, zeros filled in on either side. -/
def positional (keepFraction : Bool) (decimal : Decimal) : List Char :=
  let digits := Nat.toDigits 10 decimal.digits
  let places := (-decimal.exponent).toNat
  if places = 0 then
    digits ++ zeros decimal.exponent.toNat ++ (if keepFraction then ['.', '0'] else [])
  else if places < digits.length then
    digits.take (digits.length - places) ++ ['.'] ++ digits.drop (digits.length - places)
  else
    ['0', '.'] ++ zeros (places - digits.length) ++ digits

/-- One digit before the point, and the power of ten after an `e`. -/
def withPower (decimal : Decimal) : List Char :=
  let digits := Nat.toDigits 10 decimal.digits
  let power := decimal.exponent + digits.length - 1
  let sign := if power < 0 then ['-'] else []
  let fraction := if digits.length = 1 then [] else '.' :: digits.drop 1
  digits.take 1 ++ fraction ++ ['e'] ++ sign ++ Nat.toDigits 10 power.natAbs

def Format.digits (format : Format) (decimal : Decimal) : List Char :=
  if format.scientific (decimal.exponent + length decimal.digits) then withPower decimal
  else positional format.keepFraction decimal

/-- The text of a number in a format. -/
def Format.text (format : Format) : Binary64 → String
  | .nan => "NaN"
  | .infinite negative => if negative then "-inf" else "inf"
  | .finite negative mantissa exponent _ =>
    let digits :=
      if mantissa = 0 then positional format.keepFraction ⟨0, 0⟩
      else format.digits (shortest mantissa exponent)
    String.ofList (if negative then '-' :: digits else digits)

end PulseSequencer.Decimal

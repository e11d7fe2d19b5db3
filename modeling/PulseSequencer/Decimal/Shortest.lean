import PulseSequencer.Binary64.Basic

/-!
# Shortest decimals

The decimal with the fewest digits that reads back as a given binary64 number. The numbers that read
back are those of an interval around it: halfway to its neighbours, the ends included when the
mantissa is even. For 1, 2, ... digits the two neighbours of the number on that decimal grid are
tested in exact arithmetic. Of two that read back the nearer is taken, and the upper one in a tie.
-/

namespace PulseSequencer

/-- The number `digits * 10 ^ exponent`. -/
structure Decimal where
  digits : Nat
  exponent : Int
  deriving DecidableEq

namespace Decimal

/-- The number of decimal digits of a natural number, one for zero. -/
def length (n : Nat) : Nat :=
  (Nat.toDigits 10 n).length

/-- The place of the point: `10 ^ (place - 1) ≤ n / d < 10 ^ place`, for `n` and `d` not zero. -/
def place (n d : Nat) : Int :=
  if d ≤ n then length (n / d) else 1 - length ((d - 1) / n)

/-- The interval of ratios `low / scale` to `high / scale` around `middle / scale`, with or without
its ends. -/
structure Interval where
  low : Nat
  middle : Nat
  high : Nat
  scale : Nat
  closed : Bool

/-- The numbers that round to `mantissa * 2 ^ exponent` steps of `2 ^ -1074`. Below a power of two
the neighbour is half as far away as above. -/
def Interval.around (mantissa exponent : Nat) : Interval :=
  let below := if mantissa = 1 <<< 52 ∧ 0 < exponent then 1 else 2
  let up := exponent - 1076
  { low := (4 * mantissa - below) <<< up
    middle := (4 * mantissa) <<< up
    high := (4 * mantissa + 2) <<< up
    scale := 1 <<< (1076 - exponent)
    closed := mantissa % 2 = 0 }

/-- Whether `n * unit` lies in the interval, where its bounds are counted in the same unit. -/
def Interval.contains (interval : Interval) (n unit : Nat) : Bool :=
  if interval.closed then interval.low ≤ n * unit && n * unit ≤ interval.high
  else interval.low < n * unit && n * unit < interval.high

/-- The decimal of `count` digits in the interval that is nearest to its middle, if there is one. -/
def Interval.decimal? (interval : Interval) (place : Int) (count : Nat) : Option Decimal :=
  let exponent := place - count
  let factor := Nat.pow 10 (-exponent).toNat
  let scaled := { interval with
    low := interval.low * factor
    middle := interval.middle * factor
    high := interval.high * factor }
  let unit := interval.scale * Nat.pow 10 exponent.toNat
  let down := scaled.middle / unit
  let upper := unit ≤ 2 * (scaled.middle % unit)
  match scaled.contains down unit, scaled.contains (down + 1) unit with
  | true, true => some ⟨if upper then down + 1 else down, exponent⟩
  | true, false => some ⟨down, exponent⟩
  | false, true => some ⟨down + 1, exponent⟩
  | false, false => none

/-- The shortest decimal that reads back as `mantissa * 2 ^ exponent` steps of `2 ^ -1074`.
Seventeen digits always suffice. -/
def shortest (mantissa exponent : Nat) : Decimal :=
  let interval := Interval.around mantissa exponent
  let place := place interval.middle interval.scale
  let found := (List.range 17).findSome? fun count => interval.decimal? place (count + 1)
  match found with
  -- Rounded up to the next power of ten.
  | some ⟨10, exponent⟩ => ⟨1, exponent + 1⟩
  | some decimal => decimal
  | none => ⟨interval.middle / interval.scale, 0⟩

end Decimal

end PulseSequencer

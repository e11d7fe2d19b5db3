/-!
# Binary64 numbers

The 64-bit binary floating-point numbers of IEEE 754 as a type of their own, so that every
operation on them has a definition one can reason about.

Every finite number is a whole number of steps of `2 ^ -1074`, the smallest positive number. A
finite number is held as a sign, a mantissa of at most 53 bits and an exponent counted from that
step, in the one form that uses the full width of the mantissa where it can. There is a single NaN:
no operation here looks inside one.
-/

namespace PulseSequencer

/-- The mantissa fits 53 bits and uses all of them unless the exponent is the least one. -/
def Binary64.Canonical (mantissa exponent : Nat) : Prop :=
  mantissa < 1 <<< 53 ∧ exponent ≤ 2045 ∧ (exponent = 0 ∨ 1 <<< 52 ≤ mantissa)

instance (mantissa exponent : Nat) : Decidable (Binary64.Canonical mantissa exponent) :=
  inferInstanceAs (Decidable (_ ∧ _ ∧ _))

/-- A binary64 number. The finite ones are `± mantissa * 2 ^ exponent` steps of `2 ^ -1074`. -/
inductive Binary64 where
  | nan
  | infinite (negative : Bool)
  | finite (negative : Bool) (mantissa exponent : Nat)
      (canonical : Binary64.Canonical mantissa exponent)
  deriving DecidableEq

namespace Binary64

instance : Inhabited Binary64 := ⟨.nan⟩

/-- Zero of either sign. -/
def signedZero (negative : Bool) : Binary64 :=
  .finite negative 0 0 (by decide)

def isFinite : Binary64 → Bool
  | .finite .. => true
  | _ => false

def isZero : Binary64 → Bool
  | .finite _ mantissa _ _ => mantissa == 0
  | _ => false

def neg : Binary64 → Binary64
  | .nan => .nan
  | .infinite negative => .infinite !negative
  | .finite negative mantissa exponent canonical => .finite (!negative) mantissa exponent canonical

instance : Neg Binary64 := ⟨neg⟩

def abs : Binary64 → Binary64
  | .nan => .nan
  | .infinite _ => .infinite false
  | .finite _ mantissa exponent canonical => .finite false mantissa exponent canonical

/-- A natural number with a sign in front of it. -/
def signed (negative : Bool) (n : Nat) : Int :=
  if negative then -(n : Int) else n

/-! ## Bit patterns -/

/-- The number with this bit pattern: one sign bit, eleven exponent bits, 52 fraction bits. -/
def ofBits (bits : UInt64) : Binary64 :=
  let negative := decide (1 <<< 63 ≤ bits.toNat)
  let field := bits.toNat >>> 52 % 0x800
  let fraction := bits.toNat % 0x10000000000000
  if special : field = 2047 then
    if fraction = 0 then .infinite negative else .nan
  else if field = 0 then
    .finite negative fraction 0 (by unfold Canonical; omega)
  else
    .finite negative (1 <<< 52 + fraction) (field - 1) (by unfold Canonical; omega)

/-- The bit pattern of a number. The leading mantissa bit of a normal number carries into the
exponent field, which is why one sum serves normal and subnormal numbers. -/
def toBits : Binary64 → UInt64
  | .nan => 0x7ff8000000000000
  | .infinite negative => (if negative then 0x8000000000000000 else 0) + 0x7ff0000000000000
  | .finite negative mantissa exponent _ =>
    (if negative then 0x8000000000000000 else 0) + (exponent <<< (52 : Nat) + mantissa).toUInt64

/-! ## Order -/

/-- The position of a number on the line of all numbers, the two zeros at the same place. NaN has
none. -/
def rank : Binary64 → Option Int
  | .nan => none
  | .infinite negative => some (signed negative (2047 <<< 52))
  | .finite negative mantissa exponent _ => some (signed negative (exponent <<< 52 + mantissa))

def blt (x y : Binary64) : Bool :=
  match x.rank, y.rank with
  | some a, some b => a < b
  | _, _ => false

def ble (x y : Binary64) : Bool :=
  match x.rank, y.rank with
  | some a, some b => a ≤ b
  | _, _ => false

/-- Equality as numbers: the two zeros are equal and NaN equals nothing. -/
def numEq (x y : Binary64) : Bool :=
  match x.rank, y.rank with
  | some a, some b => a == b
  | _, _ => false

instance : LT Binary64 := ⟨fun x y => x.blt y = true⟩
instance : LE Binary64 := ⟨fun x y => x.ble y = true⟩
instance (x y : Binary64) : Decidable (x < y) := inferInstanceAs (Decidable (_ = true))
instance (x y : Binary64) : Decidable (x ≤ y) := inferInstanceAs (Decidable (_ = true))

/-- The number lies between the two bounds, both included. NaN lies nowhere. -/
def Within (low high x : Binary64) : Prop :=
  low ≤ x ∧ x ≤ high

instance (low high x : Binary64) : Decidable (Within low high x) :=
  inferInstanceAs (Decidable (_ ∧ _))

end Binary64

end PulseSequencer

import PulseSequencer.Binary64.Basic

/-!
# Arithmetic on binary64 numbers

Each operation computes its exact result and rounds it once, to the nearest number, a tie to the
even mantissa. Sums, products and fused products are exact integers after a shift; a quotient is
carried as a ratio until it is rounded.
-/

namespace PulseSequencer.Binary64

/-! ## Rounding -/

/-- `n / d` rounded to the nearest natural number, a tie to the even one. -/
def nearestEven (n d : Nat) : Nat :=
  let quotient := n / d
  let twice := 2 * (n % d)
  if twice < d then quotient
  else if d < twice then quotient + 1
  else quotient + quotient % 2

/-- The number of a rounded mantissa. A mantissa that was rounded up to `2 ^ 53` moves to the next
exponent, and past the last exponent the number is infinite. -/
def assemble (negative : Bool) (mantissa exponent : Nat) : Binary64 :=
  if canonical : Canonical mantissa exponent then
    .finite negative mantissa exponent canonical
  else if carried : mantissa = 1 <<< 53 ∧ exponent < 2045 then
    .finite negative (1 <<< 52) (exponent + 1) (by unfold Canonical; omega)
  else
    .infinite negative

/-- The number nearest to `n / d * 2 ^ exponent` steps of `2 ^ -1074`. The ratio is zero or at least
one, so that its binary logarithm gives the exponent of the result. -/
def ofRatio (negative : Bool) (n d : Nat) (exponent : Int) : Binary64 :=
  if n = 0 then signedZero negative
  else
    let target := (exponent + Nat.log2 (n / d) - 52).toNat
    let up := (exponent - target).toNat
    let down := (target - exponent).toNat
    assemble negative (nearestEven (n <<< up) (d <<< down)) target

/-- The sum of two signed multiples of powers of two, in steps of `2 ^ -1074`, rounded once. A sum
of zero is negative only if both terms are. -/
def ofSum (xNegative : Bool) (xMantissa : Nat) (xExponent : Int)
    (yNegative : Bool) (yMantissa : Nat) (yExponent : Int) : Binary64 :=
  let exponent := min xExponent yExponent
  let sum := signed xNegative (xMantissa <<< (xExponent - exponent).toNat)
    + signed yNegative (yMantissa <<< (yExponent - exponent).toNat)
  if sum = 0 then signedZero (xNegative && yNegative)
  else ofRatio (decide (sum < 0)) sum.natAbs 1 exponent

/-! ## Operations -/

def ofNat (n : Nat) : Binary64 :=
  ofRatio false n 1 1074

instance (n : Nat) : OfNat Binary64 n := ⟨ofNat n⟩

def add : Binary64 → Binary64 → Binary64
  | .nan, _ | _, .nan => .nan
  | .infinite a, .infinite b => if a = b then .infinite a else .nan
  | .infinite a, .finite .. => .infinite a
  | .finite .., .infinite b => .infinite b
  | .finite a m e _, .finite b n f _ => ofSum a m e b n f

instance : Add Binary64 := ⟨add⟩
instance : Sub Binary64 := ⟨fun x y => x + -y⟩

def mul : Binary64 → Binary64 → Binary64
  | .nan, _ | _, .nan => .nan
  | .infinite a, .infinite b => .infinite (a != b)
  | .infinite a, .finite b n _ _ => if n = 0 then .nan else .infinite (a != b)
  | .finite a m _ _, .infinite b => if m = 0 then .nan else .infinite (a != b)
  | .finite a m e _, .finite b n f _ => ofRatio (a != b) (m * n) 1 ((e : Int) + f - 1074)

instance : Mul Binary64 := ⟨mul⟩

def div : Binary64 → Binary64 → Binary64
  | .nan, _ | _, .nan => .nan
  | .infinite _, .infinite _ => .nan
  | .infinite a, .finite b _ _ _ => .infinite (a != b)
  | .finite a _ _ _, .infinite b => signedZero (a != b)
  | .finite a m e _, .finite b n f _ =>
    if n = 0 then (if m = 0 then .nan else .infinite (a != b))
    -- 108 further bits make the ratio of two mantissas exceed `2 ^ 54`.
    else ofRatio (a != b) (m <<< 108) n ((e : Int) - f + 1074 - 108)

instance : Div Binary64 := ⟨div⟩

/-- `x * y + z` with a single rounding at the end. -/
def fusedMulAdd : Binary64 → Binary64 → Binary64 → Binary64
  | .finite a m e _, .finite b n f _, .finite c k g _ =>
    ofSum (a != b) (m * n) ((e : Int) + f - 1074) c k g
  | .finite .., .finite .., z => z
  | x, y, z => x * y + z

/-- The remainder of the division of the magnitudes, with the sign of the dividend. It is exact. -/
def mod : Binary64 → Binary64 → Binary64
  | .nan, _ | _, .nan | .infinite _, _ => .nan
  | .finite a m e canonical, .infinite _ => .finite a m e canonical
  | .finite a m e _, .finite _ n f _ =>
    if n = 0 then .nan
    else
      let exponent := min e f
      ofRatio a ((m <<< (e - exponent)) % (n <<< (f - exponent))) 1 exponent

instance : Mod Binary64 := ⟨mod⟩

/-- The remainder in `[0, y)` for a positive `y`, up to the rounding of the last addition. -/
def wrap (x y : Binary64) : Binary64 :=
  let remainder := x % y
  if remainder < 0 then remainder + y.abs else remainder

/-! ## Whole numbers -/

/-- The largest whole number that is not above `x`. -/
def floor : Binary64 → Binary64
  | .finite negative m e canonical =>
    if 1074 ≤ e then .finite negative m e canonical
    else
      let whole := m >>> (1074 - e)
      let below := negative && whole <<< (1074 - e) != m
      ofRatio negative (if below then whole + 1 else whole) 1 1074
  | x => x

/-- The nearest whole number, a half away from zero. -/
def round : Binary64 → Binary64
  | .finite negative m e canonical =>
    if 1074 ≤ e then .finite negative m e canonical
    else ofRatio negative ((m + 1 <<< (1073 - e)) >>> (1074 - e)) 1 1074
  | x => x

/-- The whole part of a finite number that is not negative. Zero of either sign counts. -/
def toNat? : Binary64 → Option Nat
  | .finite negative m e _ =>
    if negative && m != 0 then none
    else some ((m <<< e) >>> 1074)
  | _ => none

end PulseSequencer.Binary64

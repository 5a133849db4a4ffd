import Enablement.Number.Power
/-!
# Binary64 — floating-point numbers as exact dyadic rationals

A number of the IEEE 754 binary64 format is its 64-bit pattern. The pattern is decoded into an
integer significand and a power of two, so that rounding, comparison and text work on exact
integers and no machine arithmetic is involved. Rounding is to nearest, a half going to the even
neighbour; results beyond the largest finite number are infinite.
-/

namespace Enablement

/-- A binary64 number, given by its bit pattern. -/
structure Binary64 where
  bits : UInt64
  deriving DecidableEq, Repr, Inhabited

namespace Binary64

/-! ## The fields of the pattern -/

/-- The pattern of the infinite magnitude; larger magnitudes are not numbers. -/
def infiniteMagnitude : Nat := 2047 * pow2 52

/-- The pattern without the sign bit. Magnitudes are ordered as the values are. -/
def magnitude (x : Binary64) : Nat := x.bits.toNat % pow2 63

/-- Whether the sign bit is set. -/
def isNegative (x : Binary64) : Bool := pow2 63 ≤ x.bits.toNat

def isNaN (x : Binary64) : Bool := infiniteMagnitude < x.magnitude

def isInfinite (x : Binary64) : Bool := x.magnitude == infiniteMagnitude

def isFinite (x : Binary64) : Bool := x.magnitude < infiniteMagnitude

/-- The biased exponent. -/
def exponentField (x : Binary64) : Nat := x.magnitude / pow2 52

/-- The integer `m` of a finite number `± m * 2 ^ q`. -/
def significand (x : Binary64) : Nat :=
  if x.exponentField = 0 then x.magnitude % pow2 52 else pow2 52 + x.magnitude % pow2 52

/-- The exponent `q` of a finite number `± m * 2 ^ q`. -/
def exponent (x : Binary64) : Int := (max x.exponentField 1 : Nat) - 1075

/-- The number with a given sign and magnitude pattern. -/
def ofMagnitude (negative : Bool) (m : Nat) : Binary64 :=
  ⟨UInt64.ofNat (m + if negative then pow2 63 else 0)⟩

def zero (negative : Bool) : Binary64 := ofMagnitude negative 0

def infinity (negative : Bool) : Binary64 := ofMagnitude negative infiniteMagnitude

/-- The quiet not-a-number with an empty payload. -/
def nan : Binary64 := ofMagnitude false (infiniteMagnitude + pow2 51)

/-- The number with the opposite sign. -/
def neg (x : Binary64) : Binary64 := ofMagnitude (!x.isNegative) x.magnitude

/-! ## Rounding -/

/-- The integer nearest to `n / d`; of two equally near ones the even one. -/
def divideEven (n d : Nat) : Nat :=
  let q := n / d
  let r := n % d
  if 2 * r < d then q else if d < 2 * r then q + 1 else q + q % 2

/-- The power of two in which the significand of `n / d` is counted: it leaves 53 binary places,
or fewer at the lower end of the range. -/
def scale (n d : Nat) : Int :=
  let e : Int := (Nat.log2 n : Int) - Nat.log2 d
  let atLeast : Bool := d * pow2 e.toNat ≤ n * pow2 (-e).toNat
  max ((if atLeast then e else e - 1) - 52) (-1074)

/-- The magnitude pattern of the number nearest to `n / d`. A significand that is rounded up to
the next power of two carries into the exponent, which is what the pattern needs. -/
def nearestMagnitude (n d : Nat) : Nat :=
  if n = 0 then 0
  else
    let e := scale n d
    let q := divideEven (n * pow2 (-e).toNat) (d * pow2 e.toNat)
    min ((e + 1074).toNat * pow2 52 + q) infiniteMagnitude

/-- The number nearest to `± n / d`. -/
def ofRatio (negative : Bool) (n d : Nat) : Binary64 :=
  ofMagnitude negative (nearestMagnitude n d)

/-- The number nearest to an integer. -/
def ofInt (i : Int) : Binary64 := ofRatio (decide (i < 0)) i.natAbs 1

/-- The number nearest to `± digits * 10 ^ e`. Exponents far outside the range are settled
without computing the power. -/
def ofDecimal (negative : Bool) (digits : Nat) (e : Int) : Binary64 :=
  if digits = 0 then zero negative
  else
    let log : Int := Nat.log2 digits
    if 310 < log * 3 / 10 + e then infinity negative
    else if (log + 1) / 3 + 1 + e < -330 then zero negative
    else ofRatio negative (digits * pow10 e.toNat) (pow10 (-e).toNat)

/-! ## Arithmetic -/

/-- The rounded product of two finite numbers. -/
def mul (x y : Binary64) : Binary64 :=
  let e := x.exponent + y.exponent
  ofRatio (x.isNegative != y.isNegative) (x.significand * y.significand * pow2 e.toNat)
    (pow2 (-e).toNat)

/-- The rounded quotient of a finite number by a finite number other than zero. -/
def div (x y : Binary64) : Binary64 :=
  let e := x.exponent - y.exponent
  ofRatio (x.isNegative != y.isNegative) (x.significand * pow2 e.toNat)
    (y.significand * pow2 (-e).toNat)

/-! ## Order -/

/-- An integer that is ordered as the values are, zero standing for either zero. -/
def key (x : Binary64) : Int :=
  if x.isNegative then -(x.magnitude : Int) else x.magnitude

/-- Numbers by value, every not-a-number equal to every other and above all numbers. -/
def compare (x y : Binary64) : Ordering :=
  match x.isNaN, y.isNaN with
  | true, true => .eq
  | true, false => .gt
  | false, true => .lt
  | false, false => Ord.compare x.key y.key

/-! ## Integers -/

/-- The integer that a finite number is equal to, if there is one. -/
def toInt? (x : Binary64) : Option Int :=
  if !x.isFinite then none
  else
    let d := pow2 (-x.exponent).toNat
    if x.significand % d = 0 then
      let n := x.significand / d * pow2 x.exponent.toNat
      some (if x.isNegative then -(n : Int) else n)
    else none

end Binary64

end Enablement

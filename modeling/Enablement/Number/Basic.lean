import Enablement.Number.Text
/-!
# Numbers — integers and floating-point numbers compared exactly

A number is an integer of 64 bits or a binary64 number. An integral floating-point number within
the range of the integers stands for that integer, so `3` and `3.0` are one number. Comparison never
rounds an integer: where an integer meets a fraction, the fraction is so small that rounding the
integer cannot carry it across.
-/

namespace Enablement

/-- A numeric literal or variable value. -/
inductive Number where
  | int (n : Int64)
  | float (x : Binary64)
  deriving Repr, Inhabited

namespace Number

/-- Whether an integer has a 64-bit form. -/
def fitsInt64 (n : Int) : Bool := -(pow2 63 : Int) ≤ n && n < pow2 63

/-- The integer a number is equal to, if it is one of 64 bits. -/
def toInt64? : Number → Option Int64
  | .int n => some n
  | .float x => (x.toInt?.filter fitsInt64).map Int64.ofInt

/-- An integral floating-point number in range is replaced by its integer. -/
def canonical (n : Number) : Number :=
  match n.toInt64? with
  | some i => .int i
  | none => n

/-- An integer; one beyond 64 bits becomes the nearest floating-point number. -/
def ofInt (n : Int) : Number :=
  if fitsInt64 n then .int (Int64.ofInt n) else .float (Binary64.ofInt n)

/-- Compares an integer with a floating-point number that is no integer of 64 bits. -/
def compareIntFloat (n : Int64) (x : Binary64) : Ordering :=
  if x.isNaN then .lt
  else if (Binary64.ofInt (pow2 63)).key ≤ x.key then .lt
  else if x.key < (Binary64.ofInt (-(pow2 63 : Int))).key then .gt
  else Ord.compare (Binary64.ofInt n.toInt).key x.key

/-- The order of the exact values, not-a-number last. -/
def compare (a b : Number) : Ordering :=
  match a.canonical, b.canonical with
  | .int m, .int n => Ord.compare m.toInt n.toInt
  | .int m, .float y => compareIntFloat m y
  | .float x, .int n => (compareIntFloat n x).swap
  | .float x, .float y => Binary64.compare x y

/-- Numbers are equal when the comparison says so. -/
instance : BEq Number := ⟨fun a b => compare a b == .eq⟩

/-- The plain decimal text, never with an exponent. -/
def decimalText (n : Number) : String :=
  match n.canonical with
  | .int i => String.ofList (Digits.intDigits i.toInt)
  | .float x => String.ofList x.plainText

end Number

end Enablement

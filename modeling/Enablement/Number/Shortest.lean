import Enablement.Number.Binary64
/-!
# Shortest decimals — the fewest digits that read back

The decimals that round to a given binary64 number fill an interval around it. Among them the
shortest one is chosen, and of the shortest ones the nearest. The search goes from coarse decimal
grids to finer ones and tries on each grid the two neighbours of the number.
-/

namespace Enablement

/-- The number `digits * 10 ^ exponent`. -/
structure Decimal where
  digits : Nat
  exponent : Int
  deriving DecidableEq, Repr

/-- Which neighbour stands for a number half way between two decimals. -/
inductive Tie where
  /-- The larger one. -/
  | up
  /-- The one whose last digit is even. -/
  | even
  deriving DecidableEq, Repr

namespace Binary64

/-- The interval of the reals that round to `m * 2 ^ q`, in quarters of the unit `2 ^ q`. The
distance to the number below is half as long at a power of two, except at the lower end of the
range. -/
def lowerQuarters (x : Binary64) : Nat :=
  4 * x.significand - (if x.significand = pow2 52 ∧ 1 < x.exponentField then 1 else 2)

def upperQuarters (x : Binary64) : Nat := 4 * x.significand + 2

/-- Whether `a * 10 ^ j` lies among the reals that round to `x`; the ends belong to the interval
when the significand is even. -/
def admits (x : Binary64) (a : Nat) (j : Int) : Bool :=
  let q := x.exponent - 2
  let number := a * pow10 j.toNat * pow2 (-q).toNat
  let quarter := pow10 (-j).toNat * pow2 q.toNat
  if x.significand % 2 = 0 then
    x.lowerQuarters * quarter ≤ number && number ≤ x.upperQuarters * quarter
  else
    x.lowerQuarters * quarter < number && number < x.upperQuarters * quarter

/-- The multiple of `10 ^ j` that stands for `x` on that grid, if one rounds to `x`. -/
def onGrid? (tie : Tie) (x : Binary64) (j : Int) : Option Decimal :=
  let n := x.significand * pow2 x.exponent.toNat * pow10 (-j).toNat
  let d := pow2 (-x.exponent).toNat * pow10 j.toNat
  let below := n / d
  let rest := n % d
  match x.admits below j, x.admits (below + 1) j with
  | true, true =>
    let nearerBelow : Bool := 2 * rest < d || (2 * rest == d && tie == .even && below % 2 == 0)
    some ⟨if nearerBelow then below else below + 1, j⟩
  | true, false => some ⟨below, j⟩
  | false, true => some ⟨below + 1, j⟩
  | false, false => none

/-- The first hit on the grids `10 ^ j`, `10 ^ (j - 1)`, and so on. -/
def searchGrids (tie : Tie) (x : Binary64) : Nat → Int → Decimal
  | 0, j => ⟨0, j⟩
  | fuel + 1, j =>
    match x.onGrid? tie j with
    | some d => d
    | none => searchGrids tie x fuel (j - 1)

/-- The shortest decimal that rounds to a finite number other than zero, without its sign. The
search starts above the number's own decimal exponent and ends within seventeen digits of it. -/
def shortest (tie : Tie) (x : Binary64) : Decimal :=
  let log2 : Int := Nat.log2 x.significand + x.exponent
  searchGrids tie x 25 (Int.fdiv (log2 * 30103) 100000 + 2)

end Binary64

end Enablement

import Enablement.Number.Digits
import Enablement.Number.Shortest
/-!
# The text of floating-point numbers

Two written forms share the shortest digits. The plain form is always positional. The document form
is positional for numbers of moderate size and has an exponent with a sign otherwise. Reading takes
a sign, digits around an optional point, and an optional exponent, or the name of a number that is
not finite, and rounds correctly.
-/

namespace Enablement.Binary64

open Digits

/-- Digits with a point and zeros in the places that the exponent asks for. -/
def positional (d : Decimal) : List Char :=
  let ds := natDigits d.digits
  if 0 ≤ d.exponent then ds ++ List.replicate d.exponent.toNat '0'
  else
    let places := (-d.exponent).toNat
    if places < ds.length then ds.take (ds.length - places) ++ '.' :: ds.drop (ds.length - places)
    else '0' :: '.' :: (List.replicate (places - ds.length) '0' ++ ds)

/-- One digit, a point and the others if there are any, and a power of ten with its sign. -/
def scientific (d : Decimal) : List Char :=
  let ds := natDigits d.digits
  let power : Int := ds.length + d.exponent - 1
  let mantissa := match ds with
    | c :: r => if r = [] then [c] else c :: '.' :: r
    | [] => []
  mantissa ++ 'e' :: (if power < 0 then '-' else '+') :: natDigits power.natAbs

/-- The plain form: positional at every size. -/
def plainText (x : Binary64) : List Char :=
  if x.isNaN then "NaN".toList
  else
    let sign := if x.isNegative then ['-'] else []
    sign ++
      (if x.isInfinite then "inf".toList
      else if x.significand = 0 then ['0']
      else positional (x.shortest .up))

/-- The document form of a finite number: positional while the decimal exponent of the first digit
is between -5 and 15, where a whole number keeps a zero after the point. -/
def documentText (x : Binary64) : List Char :=
  let sign := if x.isNegative then ['-'] else []
  sign ++
    (if x.significand = 0 then "0.0".toList
    else
      let d := x.shortest .even
      let power : Int := (natDigits d.digits).length + d.exponent - 1
      if -5 ≤ power ∧ power ≤ 15 then
        positional d ++ (if 0 ≤ d.exponent then ".0".toList else [])
      else scientific d)

/-! ## Reading -/

/-- Lower case for the letters of ASCII; other characters stay. -/
def lowerAscii (c : Char) : Char :=
  if 65 ≤ c.toNat && c.toNat ≤ 90 then Char.ofNat (c.toNat + 32) else c

/-- Upper case for the letters of ASCII; other characters stay. -/
def upperAscii (c : Char) : Char :=
  if 97 ≤ c.toNat && c.toNat ≤ 122 then Char.ofNat (c.toNat - 32) else c

/-- The digits at the front of a text, and what follows them. -/
def spanDigits : List Char → List Char × List Char
  | [] => ([], [])
  | c :: r =>
    if isDigit c then
      let (ds, rest) := spanDigits r
      (c :: ds, rest)
    else ([], c :: r)

/-- The size of an exponent. Once it has reached 65536, which settles every number of ordinary
length, further digits are passed over. -/
def exponentOf (ds : List Char) : Nat :=
  ds.foldl (fun n c => if n < 65536 then n * 10 + value c else n) 0

/-- Reads an exponent mark, an optional sign and at least one digit; nothing at all is power zero.
-/
def readExponent? : List Char → Option Int
  | [] => some 0
  | c :: r =>
    let (negative, ds) := match r with
      | '-' :: r => (true, r)
      | '+' :: r => (false, r)
      | r => (false, r)
    if (c == 'e' || c == 'E') && ds ≠ [] && ds.all isDigit then
      some (if negative then -(exponentOf ds : Int) else exponentOf ds)
    else none

/-- Reads digits around an optional point, at least one in all, and an optional exponent. -/
def readUnsigned? (negative : Bool) (cs : List Char) : Option Binary64 :=
  let (whole, rest) := spanDigits cs
  let (fraction, rest) := match rest with
    | '.' :: r => spanDigits r
    | r => ([], r)
  if whole = [] ∧ fraction = [] then none
  else (readExponent? rest).map fun e =>
    ofDecimal negative (ofDigits (whole ++ fraction)) (e - fraction.length)

/-- Reads a number in plain or exponent form, or the name of one that is not finite in any mix of
cases. -/
def read? (cs : List Char) : Option Binary64 :=
  let (negative, body) := match cs with
    | '-' :: r => (true, r)
    | '+' :: r => (false, r)
    | r => (false, r)
  let word := body.map lowerAscii
  if word = "inf".toList ∨ word = "infinity".toList then some (infinity negative)
  else if word = "nan".toList then some (if negative then nan.neg else nan)
  else readUnsigned? negative body

end Enablement.Binary64

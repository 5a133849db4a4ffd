import Enablement.Json.Basic
/-!
# Document text — reading

A strict reader: one value with nothing after it but white space, no leading zeros, no control
characters in strings, no surrogate without its partner, no number too large to be finite, and at
most 127 arrays and objects inside one another. Readers take a text and give a value with the rest
of the text.
-/

namespace Enablement.Json

open Digits

/-- A reader of a value at the front of a text. -/
abbrev Reader (α : Type) := List Char → Option (α × List Char)

/-- The four characters that may stand between tokens. -/
def isSpace (c : Char) : Bool := c == ' ' || c == '\n' || c == '\t' || c == '\r'

def skipSpace : List Char → List Char := List.dropWhile isSpace

/-! ## Strings -/

/-- A piece of a written string: a character, or a 16-bit unit that was given by number. -/
inductive Piece where
  | char (c : Char)
  | unit (n : Nat)
  deriving DecidableEq, Repr

/-- The value of a hexadecimal digit of either case. -/
def hexValue? (c : Char) : Option Nat :=
  let n := c.toNat
  if 48 ≤ n && n ≤ 57 then some (n - 48)
  else if 65 ≤ n && n ≤ 70 then some (n - 55)
  else if 97 ≤ n && n ≤ 102 then some (n - 87)
  else none

/-- The number that four hexadecimal digits denote. -/
def hexUnit? (a b c d : Char) : Option Nat := do
  let a ← hexValue? a
  let b ← hexValue? b
  let c ← hexValue? c
  let d ← hexValue? d
  return ((a * 16 + b) * 16 + c) * 16 + d

/-- The character that a letter after a backslash stands for. -/
def escaped? : Char → Option Char
  | '"' => some '"'
  | '\\' => some '\\'
  | '/' => some '/'
  | 'b' => some '\x08'
  | 'f' => some '\x0c'
  | 'n' => some '\n'
  | 'r' => some '\r'
  | 't' => some '\t'
  | _ => none

/-- The pieces of a string up to its closing quote. -/
def pieces : Reader (List Piece)
  | [] => none
  | '"' :: r => some ([], r)
  | '\\' :: 'u' :: a :: b :: c :: d :: r =>
    match hexUnit? a b c d, pieces r with
    | some n, some (ps, rest) => some (.unit n :: ps, rest)
    | _, _ => none
  | '\\' :: c :: r =>
    match escaped? c, pieces r with
    | some e, some (ps, rest) => some (.char e :: ps, rest)
    | _, _ => none
  | c :: r =>
    if c.toNat < 32 || c == '\\' then none
    else match pieces r with
      | some (ps, rest) => some (.char c :: ps, rest)
      | none => none

/-- Joins pieces to characters. A leading and a trailing surrogate make one character, and neither
may stand alone. -/
def joinPieces? : List Piece → Option (List Char)
  | [] => some []
  | .char c :: rest => (joinPieces? rest).map (c :: ·)
  | .unit n :: rest =>
    if 0xD800 ≤ n && n ≤ 0xDBFF then
      match rest with
      | .unit m :: rest' =>
        if 0xDC00 ≤ m && m ≤ 0xDFFF then
          (joinPieces? rest').map (Char.ofNat (0x10000 + (n - 0xD800) * 0x400 + (m - 0xDC00)) :: ·)
        else none
      | _ => none
    else if 0xDC00 ≤ n && n ≤ 0xDFFF then none
    else (joinPieces? rest).map (Char.ofNat n :: ·)

/-- A string after its opening quote. -/
def readString : Reader String := fun cs => do
  let (ps, rest) ← pieces cs
  let s ← joinPieces? ps
  return (String.ofList s, rest)

/-! ## Numbers -/

/-- The largest significand that is collected exactly. -/
def maxSignificand : Nat := pow2 64 - 1

/-- Collects whole digits into a significand. Digits from the first one that does not fit are only
counted. -/
def collectWhole : Nat → List Char → Nat × Nat
  | s, [] => (s, 0)
  | s, c :: r =>
    if s * 10 + value c ≤ maxSignificand then collectWhole (s * 10 + value c) r
    else (s, r.length + 1)

/-- Collects the digits after the point. Digits from the first one that does not fit are dropped;
the count is of those that were taken. -/
def collectFraction : Nat → List Char → Nat × Nat
  | s, [] => (s, 0)
  | s, c :: r =>
    if s * 10 + value c ≤ maxSignificand then
      let (s', n) := collectFraction (s * 10 + value c) r
      (s', n + 1)
    else (s, 0)

/-- The rounded significand times or divided by a rounded power of ten; none if the product is not
finite. Below the powers that are finite, the quotient is taken in steps, of which the third leaves
zero. -/
def scaled? (significand : Nat) (e : Int) : Option Binary64 :=
  let f := Binary64.ofInt significand
  let power (n : Nat) : Binary64 := Binary64.ofDecimal false 1 n
  if 0 ≤ e then
    if 308 < e then (if significand = 0 then some f else none)
    else (some (f.mul (power e.toNat))).filter Binary64.isFinite
  else if -308 ≤ e then some (f.div (power (-e).toNat))
  else
    let g := f.div (power 308)
    if -616 ≤ e then some (g.div (power (-e - 308).toNat)) else some (.zero false)

/-- A number with a point or an exponent, or a whole number beyond 64 bits. -/
def floatOf? (negative : Bool) (whole fraction : List Char) (e : Int) : Option Num :=
  let (s, skipped) := collectWhole 0 whole
  let (s, taken) := collectFraction s fraction
  let e := max (-(pow2 31 : Int)) (min (pow2 31 - 1) (skipped - taken + e))
  (scaled? s e).map fun x => .float (if negative then x.neg else x)

/-- A number without point and exponent. Minus zero is not a whole number. -/
def wholeOf? (negative : Bool) (whole : List Char) : Option Num :=
  let n := ofDigits whole
  if negative then
    if n = 0 then some (.float (.zero true))
    else if n ≤ pow2 63 then some (.int (-n))
    else if n ≤ maxSignificand then some (.float (Binary64.ofInt n).neg)
    else floatOf? true whole [] 0
  else if n ≤ maxSignificand then some (.int n)
  else floatOf? false whole [] 0

/-- The digits of a number's whole part: a zero, or digits that do not begin with one. -/
def readWhole : Reader (List Char) := fun cs =>
  match Binary64.spanDigits cs with
  | ([], _) => none
  | (c :: ds, rest) => if c = '0' ∧ ds ≠ [] then none else some (c :: ds, rest)

/-- At least one digit after a point, or no point. -/
def readFraction : Reader (List Char)
  | '.' :: cs =>
    match Binary64.spanDigits cs with
    | ([], _) => none
    | (ds, rest) => some (ds, rest)
  | cs => some ([], cs)

/-- An exponent with its sign, if there is one. -/
def readPower : Reader (Option Int)
  | [] => some (none, [])
  | c :: cs =>
    if c == 'e' || c == 'E' then
      let (negative, cs) := match cs with
        | '-' :: r => (true, r)
        | '+' :: r => (false, r)
        | r => (false, r)
      match Binary64.spanDigits cs with
      | ([], _) => none
      | (ds, rest) => some (some (if negative then -(ofDigits ds : Int) else ofDigits ds), rest)
    else some (none, c :: cs)

/-- A number. -/
def readNumber : Reader Num := fun cs => do
  let (negative, cs) := match cs with
    | '-' :: r => (true, r)
    | r => (false, r)
  let (whole, cs) ← readWhole cs
  let (fraction, cs) ← readFraction cs
  let (power, cs) ← readPower cs
  match fraction, power with
  | [], none => return (← wholeOf? negative whole, cs)
  | _, _ => return (← floatOf? negative whole fraction (power.getD 0), cs)

/-! ## Values -/

/-- Items separated by commas up to a closing bracket. The first argument bounds how many items can
follow; the length of the text is enough. -/
def readItems (item : Reader Json) : Nat → Reader (List Json)
  | 0, _ => none
  | n + 1, cs => do
    let (x, cs) ← item cs
    match skipSpace cs with
    | ',' :: cs =>
      let (xs, cs) ← readItems item n cs
      return (x :: xs, cs)
    | ']' :: cs => return ([x], cs)
    | _ => none

/-- A key, a colon and a value. -/
def readMember (item : Reader Json) : Reader (String × Json) := fun cs =>
  match skipSpace cs with
  | '"' :: cs => do
    let (k, cs) ← readString cs
    match skipSpace cs with
    | ':' :: cs =>
      let (v, cs) ← item cs
      return ((k, v), cs)
    | _ => none
  | _ => none

/-- Members separated by commas up to a closing brace. -/
def readMembers (item : Reader Json) : Nat → Reader (List (String × Json))
  | 0, _ => none
  | n + 1, cs => do
    let (m, cs) ← readMember item cs
    match skipSpace cs with
    | ',' :: cs =>
      let (ms, cs) ← readMembers item n cs
      return (m :: ms, cs)
    | '}' :: cs => return ([m], cs)
    | _ => none

/-- A value that is no array or object. -/
def readScalar : Reader Json
  | 'n' :: 'u' :: 'l' :: 'l' :: r => some (.null, r)
  | 't' :: 'r' :: 'u' :: 'e' :: r => some (.bool true, r)
  | 'f' :: 'a' :: 'l' :: 's' :: 'e' :: r => some (.bool false, r)
  | '"' :: r => do
    let (s, r) ← readString r
    return (.str s, r)
  | cs => do
    let (n, r) ← readNumber cs
    return (.num n, r)

/-- A value in which at most `depth` arrays and objects are inside one another, after optional
space. -/
def readValue : (depth : Nat) → Reader Json
  | 0, cs => readScalar (skipSpace cs)
  | depth + 1, cs =>
    match skipSpace cs with
    | '[' :: cs =>
      match skipSpace cs with
      | ']' :: r => some (.arr [], r)
      | cs => do
        let (xs, r) ← readItems (readValue depth) cs.length cs
        return (.arr xs, r)
    | '{' :: cs =>
      match skipSpace cs with
      | '}' :: r => some (.obj [], r)
      | cs => do
        let (ms, r) ← readMembers (readValue depth) cs.length cs
        return (.obj ms, r)
    | cs => readScalar cs

/-- The document that a text is, if at most `depth` arrays and objects are inside one another. -/
def readWithin? (depth : Nat) (text : String) : Option Json := do
  let (j, rest) ← readValue depth text.toList
  if skipSpace rest = [] then some j else none

/-- How many arrays and objects may be inside one another. -/
def maxDepth : Nat := 127

/-- The document that a text is. -/
def read? (text : String) : Option Json := readWithin? maxDepth text

end Enablement.Json

import Enablement.Number.Text
import Enablement.Yaml.Scalar
/-!
# Indented documents — what plain scalars stand for

A plain scalar stands for nothing, a boolean, an integer, a number, or its own text, whichever its
text is the first of.
-/

namespace Enablement.Yaml

/-- What a plain scalar stands for. -/
inductive Meant where
  | nothing
  | bool (b : Bool)
  | int (n : Int)
  /-- An integer beyond 64 bits, for which documents have no place. -/
  | tooLarge
  | float (x : Binary64)
  | text
  deriving Repr

/-- Whether a text is a zero with more digits behind it, after an optional sign. -/
def isPaddedZero (cs : List Char) : Bool :=
  match cs with
  | '-' :: r => padded r
  | '+' :: r => padded r
  | r => padded r
where
  /-- A zero with more digits behind it. -/
  padded : List Char → Bool
    | '0' :: c :: r => (c :: r).all Digits.isDigit
    | _ => false

/-- The digits of a number in a base of two, eight or sixteen. -/
def inBase? (base : Nat) (cs : List Char) : Option Nat :=
  if cs = [] then none
  else cs.foldlM (fun n c =>
    match hexDigit? c with
    | some v => if v < base then some (n * base + v) else none
    | none => none) 0

/-- An unsigned integer with an optional plus: decimal, or in another base after its mark. -/
def unsigned? (cs : List Char) : Option Int :=
  let body := match cs with
    | '+' :: r => r
    | r => r
  match body with
  | '0' :: 'x' :: r => (inBase? 16 r).map Int.ofNat
  | '0' :: 'o' :: r => (inBase? 8 r).map Int.ofNat
  | '0' :: 'b' :: r => (inBase? 2 r).map Int.ofNat
  | body =>
    if isPaddedZero cs then none
    else if body ≠ [] ∧ body.all Digits.isDigit then some (Digits.ofDigits body) else none

/-- A negative integer. -/
def negative? (cs : List Char) : Option Int :=
  match cs with
  | '-' :: '0' :: 'x' :: r => (inBase? 16 r).map (fun n => -(n : Int))
  | '-' :: '0' :: 'o' :: r => (inBase? 8 r).map (fun n => -(n : Int))
  | '-' :: '0' :: 'b' :: r => (inBase? 2 r).map (fun n => -(n : Int))
  | '-' :: r =>
    if isPaddedZero cs then none
    else if r ≠ [] ∧ r.all Digits.isDigit then some (-(Digits.ofDigits r : Int)) else none
  | _ => none

/-- An integer, if a text is one of at most 128 bits. -/
def integer? (cs : List Char) : Option Meant :=
  match unsigned? cs, negative? cs with
  | some n, _ =>
    if n < pow2 64 then some (.int n) else if n < pow2 128 then some .tooLarge else none
  | none, some n =>
    if -(pow2 63 : Int) ≤ n then some (.int n)
    else if -(pow2 127 : Int) ≤ n then some .tooLarge
    else none
  | none, none => none

/-- A number with its names for what is not finite. A number too large to be finite is none. -/
def float? (cs : List Char) : Option Binary64 :=
  let body := match cs with
    | '+' :: r => r
    | r => r
  if body ∈ [".inf".toList, ".Inf".toList, ".INF".toList] then some (.infinity false)
  else if cs ∈ ["-.inf".toList, "-.Inf".toList, "-.INF".toList] then some (.infinity true)
  else if cs ∈ [".nan".toList, ".NaN".toList, ".NAN".toList] then some .nan
  else if body ≠ cs ∧ (body.head? = some '+' ∨ body.head? = some '-') then none
  else (Binary64.read? body).filter Binary64.isFinite

/-- A boolean in one of three spellings. -/
def bool? (text : String) : Option Bool :=
  if text ∈ ["true", "True", "TRUE"] then some true
  else if text ∈ ["false", "False", "FALSE"] then some false
  else none

/-- Whether a plain text stands for nothing. -/
def isNothing (text : String) : Bool := text ∈ ["", "~", "null", "Null", "NULL"]

/-- What a plain text stands for. -/
def meant (text : String) : Meant :=
  if isNothing text then .nothing
  else
    match bool? text with
    | some b => .bool b
    | none =>
      match integer? text.toList with
      | some m => m
      | none =>
        if isPaddedZero text.toList then .text
        else
          match float? text.toList with
          | some x => .float x
          | none => .text

end Enablement.Yaml

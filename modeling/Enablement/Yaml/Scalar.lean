import Enablement.Yaml.Place
/-!
# Indented documents — the texts of scalars

A scalar is read character by character. The text read so far is kept backwards, and the gap behind
it is kept aside until the next word shows that the scalar goes on.
-/

namespace Enablement.Yaml

/-- A scalar that has been read. -/
structure Scanned where
  text : List Char
  /-- Whether there is a break between the scalar and what follows it. -/
  hasBreak : Bool
  place : Place
  rest : List Char

/-! ## Plain scalars -/

/-- Whether a plain scalar ends before a word that does not begin with a blank or a break. -/
def plainEnds (flow : Bool) (minCol : Nat) (gap : Gap) (p : Place) (cs : List Char) : Bool :=
  (!gap.isEmpty &&
    ((!flow && p.col < minCol) || cs.head? == some '#' ||
      (p.col == 0 && (startMarkAhead cs || endMarkAhead cs)))) ||
  match cs with
  | ':' :: r => spaceAhead r
  | c :: _ => flow && isFlowMark c
  | [] => true

/-- Whether a colon stands where it can neither be part of a scalar between brackets nor end it. -/
def strayColonAhead : List Char → Bool
  | ':' :: c :: _ => isFlowMark c || c == '?'
  | _ => false

/-- A plain scalar whose lines after the first begin at a column or right of it. No tab may stand
left of that column. -/
def plainScalar (flow : Bool) (minCol : Nat) :
    (read : List Char) → Gap → Place → List Char → Option Scanned
  | read, gap, p, [] => some ⟨read.reverse, gap.hasBreak, p, []⟩
  | read, gap, p, c :: r =>
    if isBreak c then plainScalar flow minCol read (gap.addBreak c) (p.newLine c) r
    else if isBlank c then
      if c == '\t' && gap.hasBreak && p.col < minCol then none
      else plainScalar flow minCol read (gap.addBlank c) (p.next c) r
    else if plainEnds flow minCol gap p (c :: r) then
      some ⟨read.reverse, gap.hasBreak, p, c :: r⟩
    else if flow && strayColonAhead (c :: r) then none
    else plainScalar flow minCol (c :: (gap.text.reverse ++ read)) .none (p.next c) r

/-! ## Quoted scalars -/

/-- Whether a line begins with a mark of documents, which no quoted scalar may hold. -/
def markAhead (p : Place) (cs : List Char) : Bool :=
  p.col == 0 && (startMarkAhead cs || endMarkAhead cs)

/-- A scalar in single quotes, behind the opening quote. A quote in it is written twice. -/
def singleQuoted : (read : List Char) → Gap → Place → List Char → Option Scanned
  | _, _, _, [] => none
  | read, gap, p, c :: r =>
    if isBreak c then singleQuoted read (gap.addBreak c) (p.newLine c) r
    else if isBlank c then singleQuoted read (gap.addBlank c) (p.next c) r
    else if markAhead p (c :: r) then none
    else
      let read := gap.text.reverse ++ read
      if c == '\'' then
        match r with
        | '\'' :: r' => singleQuoted ('\'' :: read) .none ((p.next c).next c) r'
        | _ => some ⟨read.reverse, false, p.next c, r⟩
      else singleQuoted (c :: read) .none (p.next c) r

/-- The value of a hexadecimal digit. -/
def hexDigit? (c : Char) : Option Nat :=
  let v := c.toNat
  if 48 ≤ v && v ≤ 57 then some (v - 48)
  else if 65 ≤ v && v ≤ 70 then some (v - 55)
  else if 97 ≤ v && v ≤ 102 then some (v - 87)
  else none

/-- The character of a code point; surrogates have none. -/
def charOf? (n : Nat) : Option Char :=
  if n < 0xD800 || (0xDFFF < n && n ≤ 0x10FFFF) then some (Char.ofNat n) else none

/-- The character that a letter after a backslash stands for. -/
def escaped? : Char → Option Char
  | '0' => some (Char.ofNat 0)
  | 'a' => some (Char.ofNat 7)
  | 'b' => some (Char.ofNat 8)
  | 't' => some '\t'
  | '\t' => some '\t'
  | 'n' => some '\n'
  | 'v' => some (Char.ofNat 11)
  | 'f' => some (Char.ofNat 12)
  | 'r' => some '\r'
  | 'e' => some (Char.ofNat 27)
  | ' ' => some ' '
  | '"' => some '"'
  | '/' => some '/'
  | '\\' => some '\\'
  | 'N' => some (Char.ofNat 0x85)
  | '_' => some (Char.ofNat 0xA0)
  | 'L' => some lineSeparator
  | 'P' => some paragraphSeparator
  | _ => none

/-- How many digits follow an escape that gives a code point. -/
def codeDigits? : Char → Option Nat
  | 'x' => some 2
  | 'u' => some 4
  | 'U' => some 8
  | _ => none

/-- A code point that is being read. -/
structure CodePoint where
  /-- The digits that are still to come. -/
  left : Nat
  value : Nat := 0

/-- A scalar in double quotes, behind the opening quote, perhaps within an escape that gives a code
point. An escaped break reads as nothing, and blanks behind it are dropped. -/
def doubleQuoted :
    (code : Option CodePoint) → (read : List Char) → Gap → Place → List Char → Option Scanned
  | _, _, _, _, [] => none
  | some code, read, gap, p, c :: r =>
    match hexDigit? c with
    | none => none
    | some d =>
      let value := code.value * 16 + d
      if code.left ≤ 1 then
        match charOf? value with
        | none => none
        | some e => doubleQuoted none (e :: read) gap (p.next c) r
      else doubleQuoted (some ⟨code.left - 1, value⟩) read gap (p.next c) r
  | none, read, gap, p, c :: r =>
    if isBreak c then doubleQuoted none read (gap.addBreak c) (p.newLine c) r
    else if isBlank c then doubleQuoted none read (gap.addBlank c) (p.next c) r
    else if markAhead p (c :: r) then none
    else
      let read := gap.text.reverse ++ read
      if c == '"' then some ⟨read.reverse, false, p.next c, r⟩
      else if c == '\\' then
        match r with
        | [] => none
        | d :: r' =>
          if isBreak d then doubleQuoted none read (.breaks none []) ((p.next c).newLine d) r'
          else
            match codeDigits? d, escaped? d with
            | some n, _ => doubleQuoted (some ⟨n, 0⟩) read .none ((p.next c).next d) r'
            | none, some e => doubleQuoted none (e :: read) .none ((p.next c).next d) r'
            | none, none => none
      else doubleQuoted none (c :: read) .none (p.next c) r

end Enablement.Yaml

import Enablement.Yaml.Scalar
/-!
# Indented documents — tokens

A scanner cuts a text into tokens. The columns become tokens too: where a deeper column begins a
sequence or a map, and where a column ends one. A key of a map is only known by the colon behind
it, so the scanner remembers where a key may have begun and puts the token in when the colon comes.
Anchors, tags, block scalars and directives are not part of the notation that is read here.
-/

namespace Enablement.Yaml

/-- A token. -/
inductive Token where
  | documentStart
  | documentEnd
  /-- A column at which dashes stand. -/
  | blockSeq
  /-- A column at which keys stand. -/
  | blockMap
  /-- The end of what stands at a column. -/
  | blockEnd
  | openSeq
  | closeSeq
  | openMap
  | closeMap
  | dash
  | comma
  | key
  | value
  | scalar (plain : Bool) (text : List Char)
  deriving DecidableEq, Repr

/-- A place where a key may have begun. -/
structure KeyStart where
  place : Place
  /-- How many tokens stand before it. -/
  before : Nat
  /-- Whether nothing but a key can stand there. -/
  required : Bool

/-- A key ends on the line it begins on, and is not longer than 1024 bytes. -/
def KeyStart.isPast (k : KeyStart) (p : Place) : Bool :=
  k.place.line < p.line || k.place.offset + 1024 < p.offset

/-- What a scanner knows between two tokens. -/
structure Scanner where
  place : Place := {}
  /-- The columns of the open sequences and maps, the innermost first. -/
  columns : List Nat := []
  /-- Where a key may have begun, in the innermost brackets. -/
  keyStart : Option KeyStart := none
  /-- The same for each of the brackets around, the innermost first. -/
  outer : List (Option KeyStart) := []
  /-- Whether a key may begin at the next token. -/
  keyAllowed : Bool := true
  /-- The tokens so far, the last one first. -/
  tokens : List Token := []
  /-- How many tokens there are. -/
  count : Nat := 0

namespace Scanner

/-- Whether brackets are open. -/
def inFlow (s : Scanner) : Bool := !s.outer.isEmpty

def push (s : Scanner) (t : Token) : Scanner :=
  { s with tokens := t :: s.tokens, count := s.count + 1 }

/-- Puts a token behind the first `before` tokens. -/
def insert (s : Scanner) (before : Nat) (t : Token) : Scanner :=
  { s with tokens := s.tokens.insertIdx (s.count - before) t, count := s.count + 1 }

/-- Behind a character. -/
def advance (s : Scanner) (c : Char) : Scanner := { s with place := s.place.next c }

/-! ## Columns -/

/-- Begins a sequence or a map behind the first `before` tokens if the column is deeper than all
before. Columns mean nothing between brackets. -/
def indent (s : Scanner) (col before : Nat) (t : Token) : Scanner :=
  if s.inFlow || s.columns.head?.any (col ≤ ·) then s
  else { s.insert before t with columns := col :: s.columns }

/-- Ends the innermost sequence or map. -/
def close (s : Scanner) : Scanner := { s.push .blockEnd with columns := s.columns.tail }

/-- Ends the sequences and maps at deeper columns. -/
def dedent (s : Scanner) (col : Nat) : Scanner :=
  if s.inFlow then s else (s.columns.takeWhile (col < ·)).foldl (fun s _ => s.close) s

/-- Ends all sequences and maps. -/
def closeAll (s : Scanner) : Scanner :=
  if s.inFlow then s else s.columns.foldl (fun s _ => s.close) s

/-! ## Keys -/

/-- Gives up the place where a key may have begun. -/
def dropKey (s : Scanner) : Option Scanner :=
  if s.keyStart.any KeyStart.required then none else some { s with keyStart := none }

/-- Remembers this place, if a key may begin here. A key is required at a column of keys. -/
def markKey (s : Scanner) : Option Scanner :=
  if s.keyAllowed then do
    let required := !s.inFlow && s.columns.head? == some s.place.col
    return { ← s.dropKey with keyStart := some ⟨s.place, s.count, required⟩ }
  else some s

/-- Forgets the places that are too far back. -/
def dropPast (s : Scanner) : Option Scanner :=
  if (s.keyStart :: s.outer).any (·.any fun k => k.required && k.isPast s.place) then none
  else
    some { s with
      keyStart := s.keyStart.filter (!·.isPast s.place)
      outer := s.outer.map (·.filter (!·.isPast s.place)) }

/-! ## Tokens -/

/-- A mark that starts or ends a document. -/
def documentMark (s : Scanner) (t : Token) : Option Scanner := do
  let s ← s.closeAll.dropKey
  let place := { s.place with offset := s.place.offset + 3, col := s.place.col + 3 }
  return { s.push t with place, keyAllowed := false }

/-- An opening bracket. -/
def openBracket (s : Scanner) (c : Char) (t : Token) : Option Scanner := do
  let s ← s.markKey
  return { (s.push t).advance c with
    keyStart := none, outer := s.keyStart :: s.outer, keyAllowed := true }

/-- A closing bracket. What it closes may be a key. -/
def closeBracket (s : Scanner) (c : Char) (t : Token) : Option Scanner := do
  let s ← s.dropKey
  return { (s.push t).advance c with
    keyStart := s.outer.head?.join, outer := s.outer.tail, keyAllowed := false }

/-- A comma between brackets. -/
def comma (s : Scanner) : Option Scanner := do
  let s ← s.dropKey
  return { (s.push .comma).advance ',' with keyAllowed := true }

/-- A dash in front of an item. -/
def dash (s : Scanner) : Option Scanner :=
  if !s.inFlow && !s.keyAllowed then none
  else do
    let s ← (s.indent s.place.col s.count .blockSeq).dropKey
    return { (s.push .dash).advance '-' with keyAllowed := true }

/-- A question mark in front of a key. -/
def question (s : Scanner) : Option Scanner :=
  if !s.inFlow && !s.keyAllowed then none
  else do
    let s ← (s.indent s.place.col s.count .blockMap).dropKey
    return { (s.push .key).advance '?' with keyAllowed := !s.inFlow }

/-- A colon in front of a value. It makes a key of what began at the remembered place. -/
def colon (s : Scanner) : Option Scanner :=
  match s.keyStart with
  | some k =>
    let s := (s.insert k.before .key).indent k.place.col k.before .blockMap
    some { (s.push .value).advance ':' with keyStart := none, keyAllowed := false }
  | none =>
    if !s.inFlow && !s.keyAllowed then none
    else
      let s := s.indent s.place.col s.count .blockMap
      some { (s.push .value).advance ':' with keyAllowed := !s.inFlow }

/-- The column at which the further lines of a plain scalar may begin. -/
def minCol (s : Scanner) : Nat :=
  match s.columns with
  | [] => 0
  | col :: _ => col + 1

/-- A scalar that has been read. -/
def scalar (s : Scanner) (plain : Bool) (r : Scanned) : Scanner :=
  { s.push (.scalar plain r.text) with place := r.place, keyAllowed := r.hasBreak }

/-- Passes blanks, comments and breaks. Where a key may begin in a block, no tab is passed. Behind a
break a key may begin, except between brackets. -/
def passGap (flow : Bool) :
    (comment keyAllowed : Bool) → Place → List Char → Bool × Place × List Char
  | _, keyAllowed, p, [] => (keyAllowed, p, [])
  | comment, keyAllowed, p, c :: r =>
    if isBreak c then passGap flow false (keyAllowed || !flow) (p.newLine c) r
    else if comment then passGap flow true keyAllowed (p.next c) r
    else if c == '#' then passGap flow true keyAllowed (p.next c) r
    else if c == ' ' || (c == '\t' && (flow || !keyAllowed)) || (c == byteOrderMark && p.col == 0)
    then passGap flow false keyAllowed (p.next c) r
    else (keyAllowed, p, c :: r)

/-- The characters that no plain scalar begins with. -/
def isReserved (c : Char) : Bool :=
  isFlowMark c || c == '#' || c == '&' || c == '*' || c == '!' || c == '|' || c == '>' ||
    c == '\'' || c == '"' || c == '%' || c == '@' || c == Char.ofNat 96

/-- Whether a plain scalar begins with a character, given what follows it. -/
def startsPlain (flow : Bool) (c : Char) (r : List Char) : Bool :=
  if c == '-' then !spaceAhead r
  else if c == '?' || c == ':' then !flow && !spaceAhead r
  else !(isBlank c || isReserved c)

/-- Reads the token that a text begins with. -/
def next (s : Scanner) (c : Char) (r : List Char) : Option (Scanner × List Char) :=
  let behind (s : Option Scanner) : Option (Scanner × List Char) := s.map (·, r)
  let behindMark (s : Option Scanner) : Option (Scanner × List Char) := s.map (·, r.drop 2)
  if s.place.col == 0 && startMarkAhead (c :: r) then behindMark (s.documentMark .documentStart)
  else if s.place.col == 0 && endMarkAhead (c :: r) then behindMark (s.documentMark .documentEnd)
  else if c == '[' then behind (s.openBracket c .openSeq)
  else if c == '{' then behind (s.openBracket c .openMap)
  else if c == ']' then behind (s.closeBracket c .closeSeq)
  else if c == '}' then behind (s.closeBracket c .closeMap)
  else if c == ',' then behind s.comma
  else if c == '-' && spaceAhead r then behind s.dash
  else if c == '?' && (s.inFlow || spaceAhead r) then behind s.question
  else if c == ':' && (s.inFlow || spaceAhead r) then behind s.colon
  else if c == '\'' then do
    let s ← s.markKey
    let read ← singleQuoted [] .none (s.place.next c) r
    return (s.scalar false read, read.rest)
  else if c == '"' then do
    let s ← s.markKey
    let read ← doubleQuoted none [] .none (s.place.next c) r
    return (s.scalar false read, read.rest)
  else if startsPlain s.inFlow c r then do
    let s ← s.markKey
    let read ← plainScalar s.inFlow s.minCol [] .none s.place (c :: r)
    return (s.scalar true read, read.rest)
  else none

/-- Reads all tokens. The first argument bounds their number; every token takes a character. -/
def run : Nat → Scanner → List Char → Option Scanner
  | 0, _, _ => none
  | fuel + 1, s, cs =>
    let (keyAllowed, place, cs) := passGap s.inFlow false s.keyAllowed s.place cs
    match { s with keyAllowed, place }.dropPast with
    | none => none
    | some s =>
      match cs with
      | [] => s.closeAll.dropKey
      | c :: r =>
        match (s.dedent s.place.col).next c r with
        | none => none
        | some (s, cs) => run fuel s cs

end Scanner

/-- The tokens of a whole text. -/
def tokens? (text : String) : Option (List Token) :=
  if text.toList.all isPrintable then
    let cs := unifyBreaks text.toList
    (Scanner.run (cs.length + 1) {} cs).map (·.tokens.reverse)
  else none

end Enablement.Yaml

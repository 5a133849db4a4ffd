import Enablement.Yaml.Token
/-!
# Indented documents — trees

A tree is built from the tokens by recursion on the notation. A value that is left out is an empty
plain scalar. Trees of more than 128 levels are refused.
-/

namespace Enablement

/-- A tree of an indented document. -/
inductive Yaml where
  | scalar (plain : Bool) (text : String)
  | seq (items : List Yaml)
  | map (entries : List (Yaml × Yaml))
  deriving Repr, Inhabited

namespace Yaml

/-- The value that is not written. -/
def missing : Yaml := .scalar true ""

/-- The text of a scalar in any style. -/
def text? : Yaml → Option String
  | .scalar _ text => some text
  | _ => none

/-- The entries of a map. A missing value has none. -/
def entries? : Yaml → Option (List (Yaml × Yaml))
  | .map entries => some entries
  | .scalar true "" => some []
  | _ => none

/-! ## Depth -/

mutual

/-- How many sequences and maps are nested. -/
def depth : Yaml → Nat
  | .scalar _ _ => 0
  | .seq items => depthOfItems items + 1
  | .map entries => depthOfEntries entries + 1

def depthOfItems : List Yaml → Nat
  | [] => 0
  | y :: rest => max (depth y) (depthOfItems rest)

def depthOfEntries : List (Yaml × Yaml) → Nat
  | [] => 0
  | (key, value) :: rest => max (max (depth key) (depth value)) (depthOfEntries rest)

end

/-- The deepest nesting that is read. -/
def maxDepth : Nat := 128

/-! ## Notation -/

/-- Where a node stands. -/
inductive Position where
  | flow
  | block
  /-- At a key or a value of a map in a block, where a sequence may begin at the column of the keys.
  -/
  | entry
  deriving DecidableEq, Repr

/-- Whether a token ends an item of a sequence at a column. -/
def endsItem (t : Token) : Bool := t == .dash || t == .blockEnd

/-- Whether a token ends a key or a value of a map at a column. -/
def endsEntry (t : Token) : Bool := t == .key || t == .value || t == .blockEnd

/-- Whether a token ends a value in brackets. -/
def endsFlow (closing t : Token) : Bool := t == .comma || t == closing

/-- Passes the comma in front of all items and entries but the first. -/
def passComma (closing : Token) (first : Bool) : List Token → Option (List Token)
  | .comma :: ts => if first then some (.comma :: ts) else some ts
  | t :: ts => if first || t == closing then some (t :: ts) else none
  | [] => none

mutual

/-- A node. -/
def node : Nat → Position → List Token → Option (Yaml × List Token)
  | 0, _, _ => none
  | fuel + 1, position, ts =>
    match ts with
    | .scalar plain text :: ts => some (.scalar plain (String.ofList text), ts)
    | .openSeq :: ts => do
      let (items, rest) ← flowItems fuel true ts
      return (.seq items, rest)
    | .openMap :: ts => do
      let (entries, rest) ← flowEntries fuel true ts
      return (.map entries, rest)
    | .blockSeq :: ts =>
      if position == .flow then none
      else do
        let (items, rest) ← blockItems fuel ts
        return (.seq items, rest)
    | .blockMap :: ts =>
      if position == .flow then none
      else do
        let (entries, rest) ← blockEntries fuel ts
        return (.map entries, rest)
    | .dash :: ts =>
      if position == .entry then do
        let (items, rest) ← bareItems fuel (.dash :: ts)
        return (.seq items, rest)
      else none
    | _ => none

/-- A node, or nothing in front of a token that shows that it is left out. -/
def nodeOr : Nat → Position → (ends : Token → Bool) → List Token → Option (Yaml × List Token)
  | 0, _, _, _ => none
  | fuel + 1, position, ends, ts =>
    if ts.head?.any ends then some (missing, ts) else node fuel position ts

/-- A value, which a token may announce. -/
def valueOr : Nat → Position → (ends : Token → Bool) → List Token → Option (Yaml × List Token)
  | 0, _, _, _ => none
  | fuel + 1, position, ends, ts =>
    match ts with
    | .value :: ts => nodeOr fuel position ends ts
    | ts => some (missing, ts)

/-- The items at a column. -/
def blockItems : Nat → List Token → Option (List Yaml × List Token)
  | 0, _ => none
  | fuel + 1, ts =>
    match ts with
    | .dash :: ts => do
      let (item, rest) ← nodeOr fuel .block endsItem ts
      let (items, rest) ← blockItems fuel rest
      return (item :: items, rest)
    | .blockEnd :: ts => some ([], ts)
    | _ => none

/-- The items at the column of the keys around them. -/
def bareItems : Nat → List Token → Option (List Yaml × List Token)
  | 0, _ => none
  | fuel + 1, ts =>
    match ts with
    | .dash :: ts => do
      let (item, rest) ← nodeOr fuel .block (fun t => endsItem t || endsEntry t) ts
      let (items, rest) ← bareItems fuel rest
      return (item :: items, rest)
    | ts => some ([], ts)

/-- The entries at a column. -/
def blockEntries : Nat → List Token → Option (List (Yaml × Yaml) × List Token)
  | 0, _ => none
  | fuel + 1, ts =>
    match ts with
    | .key :: ts => do
      let (key, rest) ← nodeOr fuel .entry endsEntry ts
      let (value, rest) ← valueOr fuel .entry endsEntry rest
      let (entries, rest) ← blockEntries fuel rest
      return ((key, value) :: entries, rest)
    | .blockEnd :: ts => some ([], ts)
    | _ => none

/-- The items up to the closing bracket. An item with a key is a map of one entry. -/
def flowItems : Nat → (first : Bool) → List Token → Option (List Yaml × List Token)
  | 0, _, _ => none
  | fuel + 1, first, ts =>
    match passComma .closeSeq first ts with
    | none => none
    | some (.closeSeq :: ts) => some ([], ts)
    | some (.key :: ts) => do
      let (entry, rest) ← flowPair fuel ts
      let (items, rest) ← flowItems fuel false rest
      return (.map [entry] :: items, rest)
    | some ts => do
      let (item, rest) ← node fuel .flow ts
      let (items, rest) ← flowItems fuel false rest
      return (item :: items, rest)

/-- The entry of an item with a key. Where the key is left out, the token behind it is passed over.
-/
def flowPair : Nat → List Token → Option ((Yaml × Yaml) × List Token)
  | 0, _ => none
  | fuel + 1, ts => do
    let ends (t : Token) : Bool := t == .value || endsFlow .closeSeq t
    let (key, rest) ←
      if ts.head?.any ends then pure (missing, ts.tail) else node fuel .flow ts
    let (value, rest) ← valueOr fuel .flow (endsFlow .closeSeq) rest
    return ((key, value), rest)

/-- The entries up to the closing brace. One without a token for its key has no value. -/
def flowEntries : Nat → (first : Bool) → List Token → Option (List (Yaml × Yaml) × List Token)
  | 0, _, _ => none
  | fuel + 1, first, ts =>
    match passComma .closeMap first ts with
    | none => none
    | some (.closeMap :: ts) => some ([], ts)
    | some (.key :: ts) => do
      let (key, rest) ← nodeOr fuel .flow (fun t => t == .value || endsFlow .closeMap t) ts
      let (value, rest) ← valueOr fuel .flow (endsFlow .closeMap) rest
      let (entries, rest) ← flowEntries fuel false rest
      return ((key, value) :: entries, rest)
    | some ts => do
      let (key, rest) ← node fuel .flow ts
      let (entries, rest) ← flowEntries fuel false rest
      return ((key, missing) :: entries, rest)

end

/-! ## Documents -/

/-- The tree that a text is a document of. A text of blanks and comments reads as a missing value. A
second document is refused. -/
def read? (text : String) : Option Yaml := do
  let ts ← tokens? text
  let fuel := 4 * ts.length + 4
  let isMark (t : Token) : Bool := t == .documentStart || t == .documentEnd
  let (y, rest) ← match ts with
    | [] => pure (missing, [])
    | .documentStart :: [] => pure (missing, [])
    | .documentStart :: ts => nodeOr fuel .block isMark ts
    | ts => node fuel .block ts
  if rest.all (· == .documentEnd) && y.depth ≤ maxDepth then some y else none

end Yaml

end Enablement

import Enablement.Value.Order
/-!
# What a value gives to a hasher

A hash code is computed from a sequence of atoms. Equal values give the same atoms: a number gives
its canonical form, and every not-a-number gives the same pattern.
-/

namespace Enablement

/-- A piece of data that a hasher takes. -/
inductive Atom where
  /-- The kind of what follows. -/
  | tag (n : Nat)
  | flag (b : Bool)
  | int (n : Int)
  | bits (b : UInt64)
  | text (s : String)
  /-- How many parts follow. -/
  | size (n : Nat)
  /-- The identity of a host object. -/
  | identity (id : String)
  deriving DecidableEq, Repr

namespace Number

/-- The atoms of a number. -/
def feed (n : Number) : List Atom :=
  match n.canonical with
  | .int i => [.int i.toInt]
  | .float x => [.bits (if x.isNaN then Binary64.nan.bits else x.bits)]

end Number

namespace Value

mutual

/-- The atoms of a value: its kind, then its parts. -/
def feed : Value → List Atom
  | .null => [.tag 0]
  | .bool b => [.tag 1, .flag b]
  | .number n => .tag 2 :: n.feed
  | .string s => [.tag 3, .text s]
  | .array items => .tag 4 :: .size items.length :: feedItems items
  | .set members => .tag 5 :: .size members.length :: feedItems members
  | .object entries => .tag 6 :: .size entries.length :: feedEntries entries
  | .type name => [.tag 7, .text name]
  | .host ref => [.tag 8, .identity ref.id]
  | .undefined => [.tag 9]

def feedItems : List Value → List Atom
  | [] => []
  | v :: rest => feed v ++ feedItems rest

def feedEntries : List (Value × Value) → List Atom
  | [] => []
  | (k, v) :: rest => feed k ++ (feed v ++ feedEntries rest)

end

end Value

/-- A hasher turns a sequence of atoms into 32 bits. -/
abbrev Hasher := List Atom → UInt32

namespace Atom

/-- Mixes a number into a hash. -/
def mix (h : UInt32) (n : Nat) : UInt32 := (h ^^^ UInt32.ofNat (n % pow2 32)) * 16777619

/-- Mixes an atom into a hash. -/
def mixAtom (h : UInt32) : Atom → UInt32
  | .tag n => mix (mix h 1) n
  | .flag b => mix (mix h 2) b.toNat
  | .int n => mix (mix (mix h 3) n.natAbs) (if n < 0 then 1 else 0)
  | .bits b => mix (mix (mix h 4) b.toNat) (b.toNat / pow2 32)
  | .text s => s.toList.foldl (fun h c => mix h c.toNat) (mix h 5)
  | .size n => mix (mix h 6) n
  | .identity s => s.toList.foldl (fun h c => mix h c.toNat) (mix h 7)

/-- The hasher in use: it multiplies and mixes atom by atom. -/
def hasher : Hasher := fun atoms => atoms.foldl mixAtom 2166136261

end Atom

end Enablement

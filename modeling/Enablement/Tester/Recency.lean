/-!
# Recency — a bounded table that forgets what was not used lately

Entries stand in the order of their last use, the latest first. Finding an entry and putting one are
uses. A new entry that would exceed the capacity drops the last one.
-/

namespace Enablement

/-- A table of at most `capacity` entries, the most recently used first. -/
structure Recency (κ β : Type) where
  capacity : Nat
  entries : List (κ × β) := []

namespace Recency

variable {κ β : Type} [DecidableEq κ]

/-- The value under a key. -/
def find? (r : Recency κ β) (k : κ) : Option β :=
  (r.entries.find? (fun e => e.1 = k)).map (·.2)

/-- The entries of all other keys. -/
def others (r : Recency κ β) (k : κ) : List (κ × β) :=
  r.entries.filter (fun e => e.1 ≠ k)

/-- The value under a key, which is used by that. -/
def get (r : Recency κ β) (k : κ) : Option β × Recency κ β :=
  match r.find? k with
  | some v => (some v, { r with entries := (k, v) :: r.others k })
  | none => (none, r)

/-- Puts a value under a key, which is used by that. -/
def put (r : Recency κ β) (k : κ) (v : β) : Recency κ β :=
  { r with entries := ((k, v) :: r.others k).take r.capacity }

/-- Drops a key. -/
def remove (r : Recency κ β) (k : κ) : Recency κ β :=
  { r with entries := r.others k }

/-- Drops everything. -/
def clear (r : Recency κ β) : Recency κ β := { r with entries := [] }

def size (r : Recency κ β) : Nat := r.entries.length

def isEmpty (r : Recency κ β) : Bool := r.entries.isEmpty

end Recency

end Enablement

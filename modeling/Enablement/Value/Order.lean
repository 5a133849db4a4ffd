import Enablement.Value.Basic
/-!
# The order of values

Values of different kinds are ordered by kind. Within a kind, text is ordered by code points,
numbers by their exact values, collections by their first difference. Equality is stated on its own
and agrees with the order. Sets and objects are built by inserting in order, so that they do not
depend on the order in which their parts came.
-/

namespace Enablement

namespace HostRef

/-- By type name, then by identity. -/
def compare (a b : HostRef) : Ordering :=
  (Ord.compare a.typeName b.typeName).then (Ord.compare a.id b.id)

end HostRef

namespace Value

/-- The place of a kind among the kinds. -/
def rank : Value → Nat
  | .null => 0
  | .bool _ => 1
  | .number _ => 2
  | .string _ => 3
  | .array _ => 4
  | .set _ => 5
  | .object _ => 6
  | .type _ => 7
  | .host _ => 8
  | .undefined => 9

mutual

/-- The order of values. -/
def compare : Value → Value → Ordering
  | .null, .null => .eq
  | .bool a, .bool b => Ord.compare a b
  | .number a, .number b => Number.compare a b
  | .string a, .string b => Ord.compare a b
  | .array a, .array b => compareItems a b
  | .set a, .set b => compareItems a b
  | .object a, .object b => compareEntries a b
  | .type a, .type b => Ord.compare a b
  | .host a, .host b => HostRef.compare a b
  | .undefined, .undefined => .eq
  | a, b => Ord.compare a.rank b.rank

/-- Lists by their first difference, a list before its extensions. -/
def compareItems : List Value → List Value → Ordering
  | [], [] => .eq
  | [], _ :: _ => .lt
  | _ :: _, [] => .gt
  | a :: as, b :: bs => (compare a b).then (compareItems as bs)

/-- Lists of entries by their first difference, keys before values. -/
def compareEntries : List (Value × Value) → List (Value × Value) → Ordering
  | [], [] => .eq
  | [], _ :: _ => .lt
  | _ :: _, [] => .gt
  | (k, v) :: as, (l, w) :: bs => ((compare k l).then (compare v w)).then (compareEntries as bs)

end

mutual

/-- Whether two values are the same kind with the same parts. -/
def same : Value → Value → Bool
  | .null, .null => true
  | .bool a, .bool b => a == b
  | .number a, .number b => a == b
  | .string a, .string b => a == b
  | .array a, .array b => sameItems a b
  | .set a, .set b => sameItems a b
  | .object a, .object b => sameEntries a b
  | .type a, .type b => a == b
  | .host a, .host b => a == b
  | .undefined, .undefined => true
  | _, _ => false

def sameItems : List Value → List Value → Bool
  | [], [] => true
  | a :: as, b :: bs => same a b && sameItems as bs
  | _, _ => false

def sameEntries : List (Value × Value) → List (Value × Value) → Bool
  | [], [] => true
  | (k, v) :: as, (l, w) :: bs => same k l && same v w && sameEntries as bs
  | _, _ => false

end

instance : BEq Value := ⟨same⟩

/-! ## Sets and objects -/

/-- Adds a member to an ordered list, which keeps the one it has if an equal one is there. -/
def insertMember (v : Value) : List Value → List Value
  | [] => [v]
  | w :: rest =>
    match compare v w with
    | .lt => v :: w :: rest
    | .eq => w :: rest
    | .gt => w :: insertMember v rest

/-- Puts an entry into an ordered list; an equal key stays and its value is replaced. -/
def insertEntry (k v : Value) : List (Value × Value) → List (Value × Value)
  | [] => [(k, v)]
  | (l, w) :: rest =>
    match compare k l with
    | .lt => (k, v) :: (l, w) :: rest
    | .eq => (l, v) :: rest
    | .gt => (l, w) :: insertEntry k v rest

/-- The set of the given members. -/
def setOf (members : List Value) : Value :=
  .set (members.foldl (fun s v => insertMember v s) [])

/-- The object of the given entries. -/
def objectOf (entries : List (Value × Value)) : Value :=
  .object (entries.foldl (fun o e => insertEntry e.1 e.2 o) [])

/-- Inserts into a list so that equal values keep the order in which they came. -/
def insertStable (v : Value) : List Value → List Value
  | [] => [v]
  | w :: rest =>
    match compare v w with
    | .gt => w :: insertStable v rest
    | _ => v :: w :: rest

/-- The values in increasing order. -/
def sort (vs : List Value) : List Value :=
  vs.foldr insertStable []

end Value

end Enablement

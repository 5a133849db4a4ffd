import Enablement.Number.Basic
/-!
# Values — what conditions are asked about

Variables, literals, arguments and receivers are values of one kind: the data of documents, sets, a
type standing for itself, objects that only the host understands, and the mark of a variable that is
defined without a value. Sets list their members and objects their entries in increasing order; the
functions that build them (`Value.setOf`, `Value.objectOf`) live beside the order.
-/

namespace Enablement

/-- An object of the host. Two references are the same when they name the same object. -/
structure HostRef where
  typeName : String
  id : String
  deriving DecidableEq, Repr, Inhabited

/-- A value. -/
inductive Value where
  | null
  | bool (b : Bool)
  | number (n : Number)
  | string (s : String)
  | array (items : List Value)
  | set (members : List Value)
  | object (entries : List (Value × Value))
  /-- A type as a receiver in its own right. -/
  | type (name : String)
  | host (ref : HostRef)
  /-- A variable that is defined but carries no value. -/
  | undefined
  deriving Repr, Inhabited

namespace Value

/-- The name of the runtime type, which type checks and lookups start from. -/
def typeName : Value → String
  | .null => "null"
  | .bool _ => "boolean"
  | .number _ => "number"
  | .string _ => "string"
  | .array _ => "array"
  | .set _ => "set"
  | .object _ => "object"
  | .type name => name
  | .host ref => ref.typeName
  | .undefined => "undefined"

/-- The elements of a collection; an object has its keys. -/
def elements? : Value → Option (List Value)
  | .array items => some items
  | .set members => some members
  | .object entries => some (entries.map (·.1))
  | _ => none

/-- The size of a collection. -/
def count? : Value → Option Nat
  | .array items => some items.length
  | .set members => some members.length
  | .object entries => some entries.length
  | _ => none

def isUndefined : Value → Bool
  | .undefined => true
  | _ => false

/-- The text of a string. -/
def string? : Value → Option String
  | .string s => some s
  | _ => none

/-- The number of a number. -/
def number? : Value → Option Number
  | .number n => some n
  | _ => none

/-- A whole number as a value. -/
def ofNat (n : Nat) : Value := .number (.ofInt n)

/-- A collection has as many elements as its size says. -/
theorem count?_eq_length (v : Value) : v.count? = v.elements?.map List.length := by
  cases v <;> simp [count?, elements?]

end Value

end Enablement

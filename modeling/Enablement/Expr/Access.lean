import Enablement.NameMap
/-!
# Access — what an expression looks at

A host that keeps the outcome of a condition wants to know when to evaluate it again. An access
record says whether the default variable or a system property is looked at, which variables and
properties are, and which kinds of expressions have not said. Records are joined part by part.
-/

namespace Enablement

/-- What an expression looks at when it is evaluated. -/
structure Access where
  defaultVariable : Bool := false
  systemProperty : Bool := false
  variableNames : NameSet := .empty
  /-- Properties with their namespace. -/
  properties : NameSet := .empty
  /-- The kinds of expressions that did not say what they look at. -/
  misbehaving : NameSet := .empty
  deriving DecidableEq, Inhabited

namespace Access

def markDefault (a : Access) : Access := { a with defaultVariable := true }

def markSystem (a : Access) : Access := { a with systemProperty := true }

def addVariable (a : Access) (n : String) : Access :=
  { a with variableNames := a.variableNames.insert n }

def addProperty (a : Access) (n : String) : Access := { a with properties := a.properties.insert n }

def addMisbehaving (a : Access) (n : String) : Access :=
  { a with misbehaving := a.misbehaving.insert n }

/-- Joins everything but the access to the default variable. An expression that rebinds the default
variable records that access under the name it is rebound to. -/
def mergeExceptDefault (a b : Access) : Access where
  defaultVariable := a.defaultVariable
  systemProperty := a.systemProperty || b.systemProperty
  variableNames := a.variableNames.union b.variableNames
  properties := a.properties.union b.properties
  misbehaving := a.misbehaving.union b.misbehaving

/-- Joins two records. -/
def merge (a b : Access) : Access :=
  { a.mergeExceptDefault b with defaultVariable := a.defaultVariable || b.defaultVariable }

/-- Adds to `a` the accesses `inner` of a part that is asked about variable `n` instead of the
default variable. -/
def mergeRebound (a : Access) (n : String) (inner : Access) : Access :=
  (if inner.defaultVariable then a.addVariable n else a).mergeExceptDefault inner

end Access

end Enablement

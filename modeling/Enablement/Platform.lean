import Enablement.NameMap
import Enablement.Value.Order
/-!
# Platforms — what the host provides

The host declares types with their supertypes, adapters between types, which contributors are
active, classes that objects can be made of, and system properties. Declared supertypes may repeat,
be undeclared themselves or lead back; the search for a supertype looks at each type once.
-/

namespace Enablement

/-- Answers whether a property of a receiver is as expected, given arguments. -/
abbrev Tester :=
  (receiver : Value) → (property : String) → (args : List Value) → (expected : Option Value) → Bool

/-- How a value of one type becomes one of another. -/
inductive Adapter where
  /-- An adapter is announced, but cannot be used yet. -/
  | declared
  | loaded (adapt : Value → Option Value)

/-- What is known of an adapter. -/
inductive AdapterStatus where
  | loaded
  | notLoaded
  | none
  deriving DecidableEq, Repr

/-- What the objects of a class are. -/
inductive HostClass where
  | tester (run : Tester)
  /-- Objects that cannot test properties. -/
  | other

/-- The host's services. -/
structure Platform where
  /-- The direct supertypes of the declared types, in order. -/
  types : NameMap (List String) := {}
  /-- Adapters by the type that they take and the type that they give. -/
  adapters : NameMap (NameMap Adapter) := {}
  activeContributors : NameSet := .empty
  classes : NameMap HostClass := {}
  properties : NameMap String := {}
  /-- How many objects have been made so far. -/
  objectCount : Nat := 0

namespace Platform

/-- The type that asks for the size of a value. -/
def countableType : String := "ICountable"

/-- The type that asks for the elements of a value. -/
def iterableType : String := "IIterable"

/-- The type whose properties are the system's. -/
def platformType : String := "Platform"

/-! ## Types -/

/-- The direct supertypes of a type; an undeclared type has none. -/
def superTypes (p : Platform) (t : String) : List String := (p.types.find? t).getD []

/-- Declares the direct supertypes of a type, replacing what was declared before. -/
def declareType (p : Platform) (t : String) (supers : List String) : Platform :=
  { p with types := p.types.insert t supers }

/-- Whether `goal` is found among the waiting types and what they lead to, leaving aside the types
already seen. Each step takes one waiting type. -/
def leadsTo (p : Platform) (goal : String) : Nat → (waiting : List String) → (seen : NameSet) → Bool
  | 0, _, _ => false
  | _ + 1, [], _ => false
  | steps + 1, t :: waiting, seen =>
    if t = goal then true
    else if seen.contains t then p.leadsTo goal steps waiting seen
    else p.leadsTo goal steps (waiting ++ p.superTypes t) (seen.insert t)

/-- Every declared supertype waits at most once, and the type itself first. -/
def searchSteps (p : Platform) : Nat :=
  (p.types.entries.map (fun e => e.2.length)).foldr (· + ·) 1

/-- Whether a type is another type or inherits from it. -/
def isSubtype (p : Platform) (t super : String) : Bool :=
  p.leadsTo super p.searchSteps [t] .empty

/-- Whether a value is of a type. Null and the undefined are of none. -/
def isInstance (p : Platform) (v : Value) (t : String) : Bool :=
  match v with
  | .null => false
  | .undefined => false
  | v => p.isSubtype v.typeName t

/-! ## Adapters -/

/-- Declares an adapter, replacing one between the same types. -/
def putAdapter (p : Platform) (source target : String) (a : Adapter) : Platform :=
  { p with adapters :=
      p.adapters.insert source (((p.adapters.find? source).getD {}).insert target a) }

/-- The adapter from the value's own type. -/
def adapter? (p : Platform) (v : Value) (target : String) : Option Adapter :=
  (p.adapters.find? v.typeName).bind (·.find? target)

def hasAdapter (p : Platform) (v : Value) (target : String) : Bool := (p.adapter? v target).isSome

/-- The adapted value, if there is a loaded adapter and it gives one. -/
def adapt? (p : Platform) (v : Value) (target : String) : Option Value :=
  match p.adapter? v target with
  | some (.loaded f) => f v
  | _ => none

def adapterStatus (p : Platform) (v : Value) (target : String) : AdapterStatus :=
  match p.adapter? v target with
  | some (.loaded _) => .loaded
  | some .declared => .notLoaded
  | none => .none

/-! ## Contributors, classes and properties -/

def isActive (p : Platform) (contributor : String) : Bool :=
  p.activeContributors.contains contributor

def activate (p : Platform) (contributor : String) : Platform :=
  { p with activeContributors := p.activeContributors.insert contributor }

def deactivate (p : Platform) (contributor : String) : Platform :=
  { p with activeContributors := p.activeContributors.erase contributor }

def registerClass (p : Platform) (name : String) (c : HostClass) : Platform :=
  { p with classes := p.classes.insert name c }

def setProperty (p : Platform) (name value : String) : Platform :=
  { p with properties := p.properties.insert name value }

def removeProperty (p : Platform) (name : String) : Platform :=
  { p with properties := p.properties.erase name }

def property? (p : Platform) (name : String) : Option String := p.properties.find? name

end Platform

end Enablement

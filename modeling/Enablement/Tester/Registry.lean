import Enablement.Options
import Enablement.Tester.Descriptor
import Enablement.Tester.Recency
/-!
# The tester registry

Descriptors are registered per type, in order. For each type that lookups have reached, the registry
keeps a node with a slot per registration and the supertypes as they were when they were first asked
for. A slot is filled by an object once one is made and cleared when that fails. What lookups found
is kept in a bounded cache. A change of the registrations forgets the nodes and the cache.
-/

namespace Enablement

/-- What a lookup is for. -/
structure PropertyKey where
  typeName : String
  namespaceName : String
  name : String
  deriving DecidableEq, Repr

/-- A property resolved to the tester that answers for it. -/
structure Resolved where
  key : PropertyKey
  handle : Handle

namespace Resolved

/-- Whether what was found earlier can still be used. A forced lookup needs an object of an active
contributor. Another one needs an object exactly if the contributor is active. -/
def isValid (r : Resolved) (p : Platform) (force : Bool) : Bool :=
  let live := r.handle.isInstantiated
  let active := r.handle.isActive p
  if force then live && active else (live && active) || (!live && !active)

end Resolved

/-- The testers of one type, as far as they have been loaded. -/
structure TypeNode where
  /-- A slot per registration; a cleared slot answers for nothing. -/
  slots : Option (List (Option Handle)) := none
  superTypes : Option (List String) := none

/-- The registered testers and what is known of them. -/
structure Registry where
  registered : NameMap (List Descriptor) := {}
  nodes : NameMap TypeNode := {}
  cache : Recency PropertyKey Resolved

namespace Registry

/-- The registry without testers whose cache has a capacity. -/
def empty (capacity : Nat) : Registry := { cache := { capacity } }

/-- The testers registered for a type, in order. -/
def registrations (r : Registry) (t : String) : List Descriptor := (r.registered.find? t).getD []

/-- Registers a tester behind those of its type. -/
def register (r : Registry) (d : Descriptor) : Registry :=
  { r with registered := r.registered.insert d.typeName (r.registrations d.typeName ++ [d]) }

/-- Forgets the nodes and the cache. -/
def flush (r : Registry) : Registry := { r with nodes := {}, cache := r.cache.clear }

/-- Registers testers in order. -/
def add (r : Registry) (ds : List Descriptor) : Registry := (ds.foldl register r).flush

/-- How many testers of a contributor are registered. -/
def countOf (r : Registry) (contributor : String) : Nat :=
  (r.registered.entries.map (fun e => e.2.countP (fun d => d.contributor == contributor))).foldr
    (· + ·) 0

/-- The testers of other contributors, if there are any. -/
def keepOthers (contributor : String) (ds : List Descriptor) : Option (List Descriptor) :=
  match ds.filter (fun d => d.contributor != contributor) with
  | [] => none
  | kept => some kept

/-- Removes the testers of a contributor, and the types for which none is left. -/
def removeContributor (r : Registry) (contributor : String) : Registry :=
  { r with registered := r.registered.filterMap (keepOthers contributor) }.flush

/-- The node of a type; it is empty as long as no lookup has reached it. -/
def node (r : Registry) (t : String) : TypeNode := (r.nodes.find? t).getD {}

/-- The slots of a type, which are loaded from the registrations if they have not been. -/
def slots (r : Registry) (t : String) : List (Option Handle) :=
  (r.node t).slots.getD ((r.registrations t).map fun d => some { descriptor := d })

def setSlots (r : Registry) (t : String) (slots : List (Option Handle)) : Registry :=
  { r with nodes := r.nodes.insert t { r.node t with slots := some slots } }

/-- The supertypes of a type as they were when they were first asked for. -/
def superTypes (r : Registry) (p : Platform) (t : String) : List String :=
  (r.node t).superTypes.getD (p.superTypes t)

def setSuperTypes (r : Registry) (t : String) (supers : List String) : Registry :=
  { r with nodes := r.nodes.insert t { r.node t with superTypes := some supers } }

/-- The first slot that answers for a property, with its place. -/
def firstHandling (namespaceName property : String) :
    List (Option Handle) → Option (Nat × Handle)
  | [] => none
  | none :: rest => (firstHandling namespaceName property rest).map (fun e => (e.1 + 1, e.2))
  | some h :: rest =>
    if h.handles namespaceName property then some (0, h)
    else (firstHandling namespaceName property rest).map (fun e => (e.1 + 1, e.2))

/-- How deep a search of the supertypes can go before it comes to a type again. -/
def searchDepth (r : Registry) (p : Platform) : Nat := r.nodes.size + p.types.size + 1

end Registry

end Enablement

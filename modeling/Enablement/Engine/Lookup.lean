import Enablement.Engine.Basic
/-!
# Lookups — which tester answers for a property

A lookup starts from the runtime type of the receiver. The first registration that answers for the
property counts, where the type comes before its supertypes and these are searched depth first in
order; a receiver that is itself a type is not searched beyond its own registrations. A tester is
instantiated when it is found and its contributor is active or the lookup is forced. Results are
cached, and what is found in the cache counts as long as it is valid.
-/

namespace Enablement.Engine

/-! ## The host makes objects -/

/-- Asks the host for an object of a class, on behalf of a contributor. -/
def createObject (className contributor : String) : Act HostClass := fun e =>
  match e.platform.classes.find? className with
  | none => (.error (.classNotFound className contributor), e)
  | some c =>
    let platform := { e.platform with objectCount := e.platform.objectCount + 1 }
    (.ok c, { e with platform }.record (.created className))

/-- The handle with an object, which must be a tester. -/
def instantiate (h : Handle) : Act Handle :=
  match h.object with
  | some _ => pure h
  | none => do
    let number ← Act.read (·.platform.objectCount)
    match ← createObject h.descriptor.className h.descriptor.contributor with
    | .tester run => pure { h with object := some { number, run } }
    | .other => Act.fail (.notATester h.descriptor.className h.descriptor.contributor)

/-! ## The search -/

/-- Fills or clears the slot at a place of a type. -/
def setSlot (t : String) (i : Nat) (slot : Option Handle) (e : Engine) : Engine :=
  { e with registry := e.registry.setSlots t ((e.registry.slots t).set i slot) }

/-- Instantiates the tester in a slot. The slot keeps the object; it is cleared if there is none. -/
def instantiateSlot (t : String) (i : Nat) (h : Handle) : Act Handle := fun e =>
  match instantiate h (e.record (.requested t i)) with
  | (.ok live, e) =>
    (.ok live, (e.noteResolving (.instantiated h.descriptor.id)).setSlot t i (some live))
  | (.error f, e) => (.error f, (e.setSlot t i none).note (.notInstantiated h.descriptor.id f))

/-- The tester among those of the type itself. -/
def findLocal (namespaceName property : String) (force : Bool) (t : String) :
    Act (Option Handle) := do
  let slots ← Act.read (·.registry.slots t)
  Act.change fun e => { e with registry := e.registry.setSlots t slots }
  match Registry.firstHandling namespaceName property slots with
  | none => pure none
  | some (i, h) =>
    let active ← Act.read (fun e => h.isActive e.platform)
    if !h.isInstantiated && (force || active) then
      let live ← instantiateSlot t i h
      pure (some live)
    else pure (some h)

/-- The supertypes of a type, which stay as they are now until the registrations change. -/
def superTypes (t : String) : Act (List String) := do
  let supers ← Act.read (fun e => e.registry.superTypes e.platform t)
  Act.change fun e => { e with registry := e.registry.setSuperTypes t supers }
  pure supers

/-- The first find in a list of types. -/
def firstFound (find : String → Act (Option Handle)) : List String → Act (Option Handle)
  | [] => pure none
  | t :: ts => do
    match ← find t with
    | some h => pure (some h)
    | none => firstFound find ts

/-- The tester for a type or one of its supertypes, to a depth. -/
def findInherited (namespaceName property : String) (force : Bool) :
    (depth : Nat) → (t : String) → Act (Option Handle)
  | 0, _ => pure none
  | depth + 1, t => do
    match ← findLocal namespaceName property force t with
    | some h => pure (some h)
    | none => firstFound (findInherited namespaceName property force depth) (← superTypes t)

/-- The tester for a receiver's type; for a receiver that is a type, among its own only. -/
def find (namespaceName property : String) (force static : Bool) (t : String) :
    Act (Option Handle) := do
  if static then findLocal namespaceName property force t
  else
    let depth ← Act.read (fun e => e.registry.searchDepth e.platform)
    findInherited namespaceName property force depth t

/-! ## The cache -/

/-- Whether a receiver is a type standing for itself. -/
def isStatic : Value → Bool
  | .type _ => true
  | _ => false

/-- What is cached under a key, as long as it is valid. An entry that is not is dropped. -/
def cached? (key : PropertyKey) (force : Bool) : Act (Option Resolved) := fun e =>
  match e.registry.cache.get key with
  | (none, _) => (.ok none, e)
  | (some r, cache) =>
    if r.isValid e.platform force then
      (.ok (some r), { e with registry := { e.registry with cache } })
    else
      (.ok none, { e with registry := { e.registry with cache := cache.remove key } })

/-- Puts a result into the cache. -/
def putCached (r : Resolved) (e : Engine) : Engine :=
  { e with registry := { e.registry with cache := e.registry.cache.put r.key r } }

/-- Resolves a property of a receiver, the cache aside. -/
def resolveAnew (receiver : Value) (key : PropertyKey) (force : Bool) : Act Resolved := do
  match ← find key.namespaceName key.name force (isStatic receiver) key.typeName with
  | some h => pure ⟨key, h⟩
  | none => Act.fail (.unknownProperty key.namespaceName key.name key.typeName)

/-- Resolves a property of a receiver. -/
def resolve (receiver : Value) (namespaceName property : String) (force : Bool) :
    Act Resolved := do
  let key : PropertyKey := ⟨receiver.typeName, namespaceName, property⟩
  Act.change (·.record (.lookedUp key force))
  match ← cached? key force with
  | some r => do
    Act.change (·.noteResolving (.cacheHit key))
    pure r
  | none => do
    Act.change (·.noteResolving (.cacheMiss key))
    let r ← resolveAnew receiver key force
    Act.change (putCached r)
    pure r

/-- Puts a question to a resolved tester. -/
def ask (r : Resolved) (receiver : Value) (args : List Value) (expected : Option Value) :
    Act Bool :=
  match r.handle.object with
  | none => Act.fail (.testerNotLoaded r.handle.descriptor.id)
  | some o => do
    let result := o.run receiver r.key.name args expected
    Act.change (·.record (.asked
      { className := r.handle.descriptor.className, property := r.key.name, receiver, args,
        expected, result }))
    pure result

/-! ## Changing the registrations -/

/-- Forgets what lookups have found. -/
def registryChanged (e : Engine) : Engine :=
  { e with registry := e.registry.flush }.note .registryChanged

/-- Registers testers. -/
def addTesters (ds : List Descriptor) (e : Engine) : Engine :=
  { e with registry := e.registry.add ds }.note .registryChanged

/-- Registers the testers that an extension element declares, all of them or none, and counts
them. -/
def addTestersFrom (n : Node) : Act Nat := do
  let ds ← Act.ofExcept (Descriptor.ofExtension n)
  Act.change (addTesters ds)
  pure ds.length

/-- Removes the testers of a contributor, and counts them. -/
def removeContributor (contributor : String) (e : Engine) : Nat × Engine :=
  (e.registry.countOf contributor,
    { e with registry := e.registry.removeContributor contributor }.note .registryChanged)

end Enablement.Engine

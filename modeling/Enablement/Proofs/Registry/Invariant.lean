import Enablement.Proofs.Registry.Hierarchy
import Enablement.Proofs.Registry.Slots
/-!
# Registry — what always holds

Between registrations and lookups an engine stays consistent: testers are registered for the types
that they declare, slots hold instances of the registrations at their places, the supertypes that
are remembered are the declared ones, and what is cached under a key answers for it. A cached tester
that is instantiated is moreover the one that a search comes to. A dormant one need not be: its slot
may have been filled or cleared since.
-/

namespace Enablement

namespace Registry

/-- Testers are registered for the types that they declare. -/
def Typed (r : Registry) : Prop := ∀ t, ∀ d ∈ r.registrations t, d.typeName = t

/-- Slots hold instances of the registrations at their places. -/
def Placed (r : Registry) : Prop :=
  ∀ (t : String) (i : Nat) (h : Handle),
    (r.slots t)[i]? = some (some h) → (r.registrations t)[i]? = some h.descriptor

variable {r r' : Registry} {slots : String → List (Option Handle)}

theorem registrations_congr (h : r'.registered = r.registered) (t : String) :
    r'.registrations t = r.registrations t := by
  rw [registrations, registrations, h]

theorem Typed.congr (hr : r.Typed) (h : r'.registered = r.registered) : r'.Typed := by
  intro t d hd
  rw [registrations_congr h] at hd
  exact hr t d hd

/-- Slots that advance hold instances of the same registrations. -/
theorem Placed.advance (hr : r.Placed) (ha : r.Advance slots) (hs : r'.Holds slots)
    (h : r'.registered = r.registered) : r'.Placed := by
  intro t i h' hi
  rw [hs] at hi
  obtain ⟨h₀, hi₀, hd⟩ := ha.descriptor hi
  rw [registrations_congr h, hd]
  exact hr t i h₀ hi₀

end Registry

namespace Engine

open Registry

/-- The search from the type of a key comes to a tester. -/
def Reaches (e : Engine) (key : PropertyKey) (h : Handle) : Prop :=
  ∃ c, e.registry.candidate key.namespaceName key.name (e.platform.lineage key.typeName) = some c ∧
    c.handle = h

/-- What may stand in the cache under a key. -/
structure Entered (e : Engine) (key : PropertyKey) (x : Resolved) : Prop where
  keyed : x.key = key
  handles : x.handle.handles key.namespaceName key.name = true
  registered : x.handle.descriptor ∈ e.registry.registrations x.handle.descriptor.typeName
  live : e.platform.Acyclic → x.handle.isInstantiated = true → e.Reaches key x.handle

/-- An engine between two calls. -/
structure Consistent (e : Engine) : Prop where
  typed : e.registry.Typed
  placed : ∀ (t : String) (i : Nat) (h : Handle),
    (e.registry.slots t)[i]? = some (some h) → (e.registry.registrations t)[i]? = some h.descriptor
  superTypes : ∀ t, e.registry.superTypes e.platform t = e.platform.superTypes t
  cached : ∀ key x, e.registry.cache.find? key = some x → e.Entered key x

variable {e e' : Engine} {static force : Bool} {key : PropertyKey} {c : Candidate} {x : Resolved}
  {slots : String → List (Option Handle)} {cache : Recency PropertyKey Resolved}

/-! ## What is read off a consistent engine -/

namespace Consistent

/-- The tester of a candidate is registered for the type that it stands in. -/
theorem candidate (he : e.Consistent) {namespaceName property : String} {ts : List String}
    (hc : e.registry.candidate namespaceName property ts = some c) :
    c.handle.descriptor ∈ e.registry.registrations c.typeName ∧
      c.handle.descriptor.typeName = c.typeName := by
  obtain ⟨-, hslot, -⟩ := candidate_eq_some hc
  have hmem := List.mem_of_getElem? (he.placed _ _ _ hslot)
  exact ⟨hmem, he.typed _ _ hmem⟩

/-- A lookup searches the lineage of the receiver's type. -/
theorem candidate_eq (he : e.Consistent) (hp : e.platform.Acyclic) (key : PropertyKey) :
    e.candidate false key =
      e.registry.candidate key.namespaceName key.name (e.platform.lineage key.typeName) := by
  rw [Engine.candidate, searched, if_neg Bool.false_ne_true, searched_eq_lineage hp he.superTypes]

/-- What a lookup comes to stands first in the lineage, also when it looks at one type only. -/
theorem lineage_candidate (he : e.Consistent) (hp : e.platform.Acyclic)
    (hc : e.candidate static key = some c) :
    e.registry.candidate key.namespaceName key.name (e.platform.lineage key.typeName) = some c := by
  cases static with
  | false => rw [← he.candidate_eq hp, hc]
  | true =>
    rw [Engine.candidate, searched, if_pos rfl, candidate_cons, Registry.candidate,
      List.findSome?_nil, Option.or_none] at hc
    rw [hp.lineage_eq, candidate_cons, hc, Option.some_or]

end Consistent

/-! ## What a search keeps -/

theorem Shows.registrations (hs : Shows e e' slots cache) (t : String) :
    e'.registry.registrations t = e.registry.registrations t :=
  registrations_congr hs.registered t

/-- The hierarchy is that of the platform before. -/
theorem Shows.types (hs : Shows e e' slots cache) : e'.platform.types = e.platform.types := by
  obtain ⟨n, hp⟩ := hs.platform
  rw [hp]

/-- An entry stays one when slots advance. -/
theorem Entered.shows (hx : e.Entered key x) (hs : Shows e e' slots cache)
    (ha : e.registry.Advance slots) : e'.Entered key x := by
  refine ⟨hx.keyed, hx.handles, by rw [hs.registrations]; exact hx.registered, fun hp hlive => ?_⟩
  obtain ⟨c, hc, hh⟩ := hx.live ((Platform.acyclic_congr hs.types).1 hp) hlive
  refine ⟨c, ?_, hh⟩
  rw [← hh] at hlive
  rw [Platform.lineage_congr hs.types]
  exact ha.candidate_live hs.slots hc hlive

/-- So does a consistent engine, if what is cached afterwards was entered before. -/
theorem Consistent.shows (he : e.Consistent) (hs : Shows e e' slots cache)
    (ha : e.registry.Advance slots)
    (hcache : ∀ key x, cache.find? key = some x → e.registry.cache.find? key = some x) :
    e'.Consistent := by
  have hplaced : e.registry.Placed := he.placed
  refine ⟨he.typed.congr hs.registered, hplaced.advance ha hs.slots hs.registered, fun t => ?_,
    fun key x hx => ?_⟩
  · obtain ⟨n, hp⟩ := hs.platform
    have hsupers := hs.superTypes t
    rw [hp]
    exact hsupers.trans (he.superTypes t)
  · rw [hs.cache] at hx
    exact (he.cached key x (hcache key x hx)).shows hs ha

/-- **A direct search advances the slots**, and leaves the cache as it is. -/
theorem Direct.advance {r : Except Fault Resolved} (h : Direct e static key force r e') :
    ∃ slots, e.registry.Advance slots ∧ Shows e e' slots e.registry.cache := by
  have holds : ∀ {c}, e.candidate static key = some c →
      (e.registry.slots c.typeName)[c.place]? = some (some c.handle) := by
    intro c hc
    obtain ⟨-, hslot, -⟩ := candidate_eq_some hc
    exact hslot
  cases h with
  | unknown _ hs => exact ⟨_, .same, hs⟩
  | taken _ _ hs => exact ⟨_, .same, hs⟩
  | instantiated hc hd _ hm hs =>
    refine ⟨_, .fill (holds hc) hd ?_, hs⟩
    intro h hh
    rw [← Option.some.inj hh, (Platform.make_eq_ok hm).1]
  | refused hc hd _ _ hs =>
    refine ⟨_, .fill (holds hc) hd ?_, hs⟩
    intro h hh
    cases hh

/-- An instance of the candidate's declaration may be cached, if the search comes to it. -/
theorem Consistent.enter (he : e.Consistent) (hc : e.candidate static key = some c)
    (hs : Shows e e' slots cache) {h : Handle} (hd : h.descriptor = c.handle.descriptor)
    (hreach : e.platform.Acyclic → e'.Reaches key h) : e'.Entered key ⟨key, h⟩ := by
  obtain ⟨hmem, htype⟩ := he.candidate hc
  obtain ⟨-, -, hhandles⟩ := candidate_eq_some hc
  refine ⟨rfl, ?_, ?_, fun hp _ => hreach ((Platform.acyclic_congr hs.types).1 hp)⟩
  · rw [handles_congr hd]
    exact hhandles
  · rw [hs.registrations]
    show h.descriptor ∈ e.registry.registrations h.descriptor.typeName
    rw [hd, htype]
    exact hmem

/-- **What a direct search finds may be cached.** -/
theorem Direct.entered (h : Direct e static key force (.ok x) e') (he : e.Consistent) :
    e'.Entered key x := by
  cases h with
  | taken hc _ hs =>
    refine he.enter hc hs rfl fun hp => ⟨_, ?_, rfl⟩
    have hsame : ∀ t, e'.registry.slots t = e.registry.slots t := hs.slots
    rw [Platform.lineage_congr hs.types, candidate_congr hsame]
    exact he.lineage_candidate hp hc
  | instantiated hc _ _ hm hs =>
    have hd := (Platform.make_eq_ok hm).1
    refine he.enter hc hs hd fun hp => ?_
    -- the slot that has been filled is that of the candidate itself
    have hself := candidate_fill_self hs.slots hd (he.lineage_candidate hp hc)
    rw [← Platform.lineage_congr hs.types] at hself
    exact ⟨_, hself, rfl⟩

/-- A direct search keeps an engine consistent. -/
theorem Direct.consistent {r : Except Fault Resolved} (h : Direct e static key force r e')
    (he : e.Consistent) : e'.Consistent := by
  obtain ⟨slots, ha, hs⟩ := h.advance
  exact he.shows hs ha fun _ _ hx => hx

/-! ## What a lookup keeps -/

/-- Dropping what is cached under a key shows in the cache. -/
theorem shows_dropping (e : Engine) (key : PropertyKey) (journal : List Event) :
    Shows e (e.dropping key journal) e.registry.slots (e.registry.cache.missed key) :=
  ⟨⟨_, rfl⟩, rfl, rfl, rfl, rfl, fun _ => rfl, fun _ => rfl, rfl⟩

/-- All that a lookup changes are slots, the cache, the number of objects and the journal. -/
theorem Resolves.shows {r : Except Fault Resolved} (h : Resolves e static key force r e') :
    ∃ slots cache, Shows e e' slots cache := by
  cases h with
  | cached _ _ hs => exact ⟨_, _, hs⟩
  | found journal _ hdirect =>
    obtain ⟨_, _, hs⟩ := hdirect.advance
    exact ⟨_, _, ((shows_dropping e key journal).trans hs).setCache _⟩
  | failed journal _ hdirect =>
    obtain ⟨_, _, hs⟩ := hdirect.advance
    exact ⟨_, _, (shows_dropping e key journal).trans hs⟩

theorem resolve_shows (receiver : Value) (namespaceName property : String) (force : Bool)
    (e : Engine) :
    ∃ slots cache, Shows e (resolve receiver namespaceName property force e).2 slots cache :=
  (resolve_resolves receiver ⟨_, namespaceName, property⟩ rfl force e).shows

/-- Dropping what is cached under a key leaves a consistent engine. -/
theorem Consistent.dropping (he : e.Consistent) (key : PropertyKey) (journal : List Event) :
    (e.dropping key journal).Consistent := by
  refine he.shows (shows_dropping e key journal) .same fun k x hx => ?_
  rw [Recency.find?_missed] at hx
  split at hx
  · cases hx
  · exact hx

/-- Caching what may be cached does, too. -/
theorem Consistent.putCached (he : e.Consistent) (hx : e.Entered x.key x) :
    (e.putCached x).Consistent := by
  have entered : ∀ {k y}, e.Entered k y → (e.putCached x).Entered k y :=
    fun hy => ⟨hy.keyed, hy.handles, hy.registered, hy.live⟩
  refine ⟨he.typed, he.placed, he.superTypes, fun k y hy => ?_⟩
  rcases Recency.find?_put hy with ⟨rfl, rfl⟩ | ⟨-, hy⟩
  · exact entered hx
  · exact entered (he.cached k y hy)

/-- **A lookup keeps an engine consistent.** -/
theorem Resolves.consistent {r : Except Fault Resolved} (h : Resolves e static key force r e')
    (he : e.Consistent) : e'.Consistent := by
  cases h with
  | cached hit _ hs =>
    refine he.shows hs .same fun k y hy => ?_
    rwa [Recency.find?_get] at hy
  | found journal _ hdirect =>
    -- what is found is put under the key that was dropped before
    have he' := he.dropping key journal
    have hx := hdirect.entered he'
    refine (hdirect.consistent he').putCached ?_
    rw [hx.keyed]
    exact hx
  | failed journal _ hdirect => exact hdirect.consistent (he.dropping key journal)

end Engine

end Enablement

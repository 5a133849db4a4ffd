import Enablement.Proofs.Registry.Sound
import Enablement.Proofs.Registry.Static
/-!
# Registry — engines in use

An engine is made, used, and changed from outside: the host may declare types, replace adapters and
define expressions at any time. What is reached in this way has a sound registry. As long as no
types are declared anew, the supertypes that are remembered are the declared ones, and then
everything in the cache can be accounted for by the registrations and the hierarchy
(`Settled.lookups_accounted`).
-/

namespace Enablement

open Relation

namespace Engine

open Registry

variable {e : Engine}

/-- Whether a move changes the registrations. -/
def Move.isRegistryChange : Move → Bool
  | .addTesters _ => true
  | .removeContributor _ => true
  | .registryChanged => true
  | _ => false

/-- An engine that its uses have led to, and what the host has changed in between. -/
inductive Reachable : Engine → Prop
  | made {platform : Platform} {options : Options} {handlers : List Handler} {e : Engine}
    (hmade : make platform options handlers = .ok e) : Reachable e
  | move {e : Engine} (before : Reachable e) (m : Move) : Reachable (m.perform e)
  /-- The host changes its services or the definitions, or takes the journal. -/
  | host {e : Engine} (before : Reachable e) (platform : Platform) (definitions : Definitions)
    (journal : List Event) : Reachable { e with platform, definitions, journal }

/-- An engine whose types are the ones that were declared when the registrations last changed. -/
inductive Settled : Engine → Prop
  | made {platform : Platform} {options : Options} {handlers : List Handler} {e : Engine}
    (hmade : make platform options handlers = .ok e) : Settled e
  /-- Whatever has been declared before, it counts once the registrations change. -/
  | changed {e : Engine} (before : Reachable e) (m : Move) (hm : m.isRegistryChange = true) :
    Settled (m.perform e)
  | move {e : Engine} (before : Settled e) (m : Move) : Settled (m.perform e)
  | host {e : Engine} (before : Settled e) (platform : Platform) (definitions : Definitions)
    (journal : List Event) (htypes : platform.types = e.platform.types) :
    Settled { e with platform, definitions, journal }

theorem Settled.reachable (h : Settled e) : Reachable e := by
  induction h with
  | made hmade => exact .made hmade
  | changed before m _ => exact .move before m
  | move _ m ih => exact .move ih m
  | host _ platform definitions journal _ ih => exact .host ih platform definitions journal

/-- A run leads from a settled engine to a settled one. -/
theorem Settled.run (h : Settled e) (ms : List Move) : Settled (run ms e) := by
  induction ms generalizing e with
  | nil => exact h
  | cons m ms ih => exact ih (h.move m)

/-! ## What holds of reachable engines -/

/-- A change of the registrations forgets the nodes and the cache. -/
theorem Move.registry_of_isRegistryChange {m : Move} (hm : m.isRegistryChange = true)
    (he : e.registry.Typed) : ∃ r : Registry, r.Typed ∧ (m.perform e).registry = r.flush := by
  cases m with
  | addTesters ds => exact ⟨ds.foldl register e.registry, he.add ds, rfl⟩
  | removeContributor contributor => exact ⟨_, he.removeContributor contributor, rfl⟩
  | registryChanged => exact ⟨e.registry, he, rfl⟩
  | _ => cases hm

/-- **A move keeps the registry sound.** -/
theorem Move.perform_sound (m : Move) (he : e.registry.Sound) : (m.perform e).registry.Sound := by
  by_cases hm : m.isRegistryChange = true
  · obtain ⟨r, htyped, hr⟩ := Move.registry_of_isRegistryChange hm he.typed
    rw [hr]
    exact sound_flush htyped
  · cases m with
    | lookUp receiver namespaceName property force => exact steady_sound.resolve _ _ _ _ e he
    | evaluate x ctx => exact evaluate_keeps steady_sound x ctx e he
    | activate contributor => exact he
    | deactivate contributor => exact he
    | _ => exact absurd rfl hm

/-- **The registry of a reachable engine is sound**, whatever the host has declared meanwhile. -/
theorem Reachable.sound (h : Reachable e) : e.registry.Sound := by
  induction h with
  | made hmade =>
    obtain ⟨he, -⟩ := make_consistent hmade
    rw [make, Options.validate] at hmade
    split at hmade
    · cases hmade
    · obtain rfl := Except.ok.inj hmade
      exact sound_flush (r := .empty _) he.typed
  | move _ m ih => exact m.perform_sound ih
  | host _ _ _ _ ih => exact ih

/-- A settled engine is consistent: what is remembered is what is declared. -/
theorem Settled.consistent (h : Settled e) : e.Consistent := by
  induction h with
  | made hmade => exact (make_consistent hmade).1
  | changed before m hm =>
    obtain ⟨r, htyped, hr⟩ := Move.registry_of_isRegistryChange hm before.sound.typed
    exact consistent_of_flush hr htyped
  | move _ m ih => exact m.perform_consistent ih
  | host _ _ _ _ htypes ih => exact ih.congr rfl htypes

/-- In a consistent engine what is remembered leads along the hierarchy. -/
theorem Consistent.inherits_of_leads (he : e.Consistent) {t super : String}
    (h : e.registry.Leads t super) : e.platform.Inherits t super := by
  obtain ⟨ss, hss, hsuper⟩ := h
  rw [Platform.Inherits, ← he.superTypes t, superTypes_of_remembered hss]
  exact hsuper

/-! ## What is cached -/

/-- A tester stands in the slot of its registration, in the node of the type that it declares. -/
def Slotted (e : Engine) (h : Handle) : Prop :=
  ∃ (slots : List (Option Handle)) (place : Nat),
    (e.registry.node h.descriptor.typeName).slots = some slots ∧
      slots[place]? = some (some h) ∧
      (e.registry.registrations h.descriptor.typeName)[place]? = some h.descriptor

/-- What is known of a tester under a key: it is a registered one of the key's type or of a type
that this inherits from, and if it is instantiated it stands in the slot of its registration. -/
structure Accounted (e : Engine) (key : PropertyKey) (x : Resolved) : Prop where
  keyed : x.key = key
  handles : x.handle.descriptor.handles key.namespaceName key.name = true
  registered : x.handle.descriptor ∈ e.registry.registrations x.handle.descriptor.typeName
  inherited : ReflTransGen e.platform.Inherits key.typeName x.handle.descriptor.typeName
  slotted : x.handle.isInstantiated = true → e.Slotted x.handle

/-- An instantiated tester that a search ends with stands in the slot of its registration. -/
theorem slotted_of_searchEnds (he : e.registry.Sound) {namespaceName property t : String}
    {c : Candidate} (hc : e.registry.SearchEnds namespaceName property t (some c))
    (hlive : c.handle.isInstantiated = true) : e.Slotted c.handle := by
  obtain ⟨s, hown⟩ := Ends.exists_own hc c rfl
  obtain ⟨rfl, hslot, -⟩ := candidateOf_eq_some hown
  have hplace := he.placed _ _ _ hslot
  have htype := he.typed _ _ (List.mem_of_getElem? hplace)
  refine ⟨e.registry.slots c.typeName, c.place, ?_, hslot, ?_⟩
  · rw [htype]
    exact loaded_of_live hslot hlive
  · rw [htype]
    exact hplace

/-- **What may be cached can be accounted for**, if the hierarchy has no cycles. -/
theorem Consistent.accounted (he : e.Consistent) (hsound : e.registry.Sound)
    (hp : e.platform.Acyclic) {key : PropertyKey} {x : Resolved} (hx : e.registry.Entry key x) :
    e.Accounted key x := by
  have hacyclic : NoCycle e.registry.Leads := hp.mono fun _ _ => he.inherits_of_leads
  refine ⟨hx.keyed, hx.handles, hx.registered, ?_, fun hlive => ?_⟩
  · exact ReflTransGen.mono (fun _ _ => he.inherits_of_leads) _ _ (hx.reached hacyclic)
  · obtain ⟨c, hc, hh⟩ := hx.found hacyclic hlive
    rw [← hh] at hlive ⊢
    exact slotted_of_searchEnds hsound hc hlive

/-- **Everything that lookups keep and answer can be accounted for.** In a settled engine over a
hierarchy without cycles, the cache keeps to its capacity, and what is cached under a key is a
registered tester of the key's type or of one that this inherits from, which answers for the
property; if it is instantiated, it is the very one in the slot of its registration. The same holds
of whatever a lookup answers with, cached or not, in the engine that it leaves behind. -/
theorem Settled.lookups_accounted (h : e.Settled) (hp : e.platform.Acyclic) :
    e.registry.cache.size ≤ e.registry.cache.capacity ∧
    (∀ key x, (key, x) ∈ e.registry.cache.entries → e.Accounted key x) ∧
    ∀ receiver namespaceName property force x,
      (resolve receiver namespaceName property force e).1 = .ok x →
        (resolve receiver namespaceName property force e).2.Accounted
          ⟨receiver.typeName, namespaceName, property⟩ x := by
  have hsound := h.reachable.sound
  refine ⟨hsound.tidy.size_le, fun key x hx => ?_,
    fun receiver namespaceName property force x hx => ?_⟩
  · have hentry := hsound.entries key x (hsound.tidy.mem_entries_iff.1 hx)
    exact h.consistent.accounted hsound hp hentry
  · -- the lookup leads to a settled engine with the same types
    have hmove := h.move (.lookUp receiver namespaceName property force)
    have htypes := Move.perform_types (.lookUp receiver namespaceName property force) e
    have hanswers := resolve_answers hsound receiver namespaceName property force
    exact hmove.consistent.accounted hanswers.sound ((Platform.acyclic_congr htypes).2 hp)
      (hanswers.entry x hx)

/-- A tester of objects, asked about a string with force. -/
def objectsLookedUp : Engine :=
  run [.addTesters [ofObjects], .lookUp (.string "x") "ns" "p" true] stringEngine

/-- It is cached for strings, and stands in the slot of objects. -/
theorem objectsLookedUp_accounted :
    objectsLookedUp.Settled ∧ objectsLookedUp.platform.Acyclic ∧
      ∃ x, objectsLookedUp.registry.cache.entries = [(⟨"string", "ns", "p"⟩, x)] ∧
        x.handle.isInstantiated = true ∧
        objectsLookedUp.Accounted ⟨"string", "ns", "p"⟩ x := by
  have hsettled : objectsLookedUp.Settled := (Settled.made make_stringEngine).run _
  have hacyclic : objectsLookedUp.platform.Acyclic :=
    (Platform.acyclic_congr (run_types _ stringEngine)).2 stringHost_acyclic
  exact ⟨hsettled, hacyclic, _, rfl, rfl,
    (hsettled.lookups_accounted hacyclic).2.1 _ _ (List.mem_singleton.2 rfl)⟩

end Engine

end Enablement

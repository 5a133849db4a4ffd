import Enablement.Proofs.Registry.Remembered
import Enablement.Proofs.Registry.Run
/-!
# Registry — what holds whatever the host declares

What is cached and what slots hold has to make sense also when the host declares types anew between
two changes of the registrations. So the invariant here (`Registry.Sound`) speaks of the registry
alone: slots hold instances of their registrations, the cache is tidy, and what is cached was found
where the supertypes that are remembered lead. An instantiated tester is moreover the one that a
search by what is remembered ends with. Lookups keep all this, as what they find they have found
that way (`resolve_answers`).
-/

namespace Enablement

open Relation

namespace Registry

variable {r r' : Registry} {key : PropertyKey} {x : Resolved}
  {slots : String → List (Option Handle)}

/-! ## Entries -/

/-- What may stand in the cache under a key. -/
structure Entry (r : Registry) (key : PropertyKey) (x : Resolved) : Prop where
  keyed : x.key = key
  handles : x.handle.handles key.namespaceName key.name = true
  registered : x.handle.descriptor ∈ r.registrations x.handle.descriptor.typeName
  reached : NoCycle r.Leads → ReflTransGen r.Leads key.typeName x.handle.descriptor.typeName
  found : NoCycle r.Leads → x.handle.isInstantiated = true →
    ∃ c, r.SearchEnds key.namespaceName key.name key.typeName (some c) ∧ c.handle = x.handle

/-- A registry between two calls. -/
structure Sound (r : Registry) : Prop where
  typed : r.Typed
  placed : r.Placed
  tidy : r.cache.Tidy
  entries : ∀ key x, r.cache.find? key = some x → r.Entry key x

/-- One registry comes from another by lookups: more may be remembered, and slots may have been
filled or cleared. -/
structure Proceeds (r r' : Registry) : Prop where
  registered : r'.registered = r.registered
  recalled : r.RecalledBy r'
  advances : ∃ slots, r.Advance slots ∧ r'.Holds slots

/-- An instantiated tester that a search ends with is what it goes on to end with. -/
theorem SearchEnds.proceeds {namespaceName property t : String} {c : Candidate}
    (h : r.SearchEnds namespaceName property t (some c)) (hlive : c.handle.isInstantiated = true)
    (hp : r.Proceeds r') : r'.SearchEnds namespaceName property t (some c) := by
  obtain ⟨slots, ha, hs⟩ := hp.advances
  refine Ends.mono h id hp.recalled (fun t => ha.candidateOf_none hs) fun t c' hc hown => ?_
  obtain rfl := Option.some.inj hc
  exact ha.candidateOf_live hs hown hlive

/-- An entry stays one. -/
theorem Entry.proceeds (hx : r.Entry key x) (hp : r.Proceeds r') : r'.Entry key x where
  keyed := hx.keyed
  handles := hx.handles
  registered := by
    rw [registrations_congr hp.registered]
    exact hx.registered
  reached hr := by
    have hreached := hx.reached (hp.recalled.noCycle hr)
    exact ReflTransGen.mono (fun _ _ => hp.recalled.leads) _ _ hreached
  found hr hlive := by
    obtain ⟨c, hc, hh⟩ := hx.found (hp.recalled.noCycle hr) hlive
    exact ⟨c, hc.proceeds (by rw [hh]; exact hlive) hp, hh⟩

/-- **A registry stays sound** if what is cached afterwards was cached before, or may be. -/
theorem Sound.proceeds (h : r.Sound) (hp : r.Proceeds r') (htidy : r'.cache.Tidy)
    (hcache : ∀ key x, r'.cache.find? key = some x →
      r.cache.find? key = some x ∨ r'.Entry key x) : r'.Sound := by
  obtain ⟨slots, ha, hs⟩ := hp.advances
  refine ⟨h.typed.congr hp.registered, h.placed.advance ha hs hp.registered, htidy,
    fun key x hx => ?_⟩
  rcases hcache key x hx with hx | hx
  · exact (h.entries key x hx).proceeds hp
  · exact hx

/-- With the nodes and the cache forgotten, nothing but the types of the testers matters. -/
theorem sound_flush (hr : r.Typed) : r.flush.Sound :=
  ⟨hr, placed_flush r, .clear r.cache, fun _ _ hx => nomatch hx⟩

/-- The cache does not matter to what may stand in it. -/
theorem Entry.setCache (hx : r.Entry key x) (cache : Recency PropertyKey Resolved) :
    Entry { r with cache } key x :=
  ⟨hx.keyed, hx.handles, hx.registered, hx.reached, hx.found⟩

theorem Proceeds.setCache (hp : r.Proceeds r') (cache : Recency PropertyKey Resolved) :
    r.Proceeds { r' with cache } :=
  ⟨hp.registered, hp.recalled, hp.advances⟩

/-- Nor does it matter to what lookups start from. -/
theorem Proceeds.of_setCache {cache : Recency PropertyKey Resolved}
    (hp : Proceeds { r with cache } r') : r.Proceeds r' := by
  obtain ⟨slots, ha, hs⟩ := hp.advances
  refine ⟨hp.registered, hp.recalled, slots, ?_, hs⟩
  cases ha with
  | same => exact .same
  | fill holds dormant instances => exact .fill holds dormant instances

/-! ## Slots that are filled -/

/-- A slot with an instantiated tester has been loaded. -/
theorem loaded_of_live {t : String} {i : Nat} {h : Handle}
    (hi : (r.slots t)[i]? = some (some h)) (hlive : h.isInstantiated = true) :
    (r.node t).slots = some (r.slots t) := by
  cases hslots : (r.node t).slots with
  | some slots => rw [Registry.slots, hslots, Option.getD_some]
  | none =>
    -- loaded from the registrations, the slot would hold a dormant tester
    rw [Registry.slots, hslots, Option.getD_none, List.getElem?_map, Option.map_eq_some_iff] at hi
    obtain ⟨d, -, hd⟩ := hi
    rw [← Option.some.inj hd] at hlive
    cases hlive

end Registry

namespace Engine

open Registry

variable {e e' : Engine} {receiver : Value} {key : PropertyKey} {force : Bool} {x : Resolved}

/-! ## A direct search -/

/-- A direct search remembers, and advances the slots. -/
theorem resolveAnew_proceeds (receiver : Value) (key : PropertyKey) (force : Bool) (e : Engine) :
    e.registry.Proceeds (resolveAnew receiver key force e).2.registry := by
  obtain ⟨slots, ha, hs⟩ := (resolveAnew_direct receiver key force e).advance
  have hrecalled := (lasting_recalled e.registry).closed.resolveAnew force receiver key e (.refl _)
  exact ⟨hs.registered, hrecalled, slots, ha, hs.slots⟩

/-- A tester of the candidate's declaration may be cached, if the slot of the candidate holds it. -/
theorem entry_of_candidate (htyped : e.registry.Typed) (hplaced : e.registry.Placed)
    {c : Candidate} (hc : e.candidate (isStatic receiver) key = some c) {h : Handle}
    (hd : h.descriptor = c.handle.descriptor)
    (hself : e.registry.candidateOf key.namespaceName key.name c.typeName = some c →
      (resolveAnew receiver key force e).2.registry.candidateOf key.namespaceName key.name
        c.typeName = some { c with handle := h }) :
    (resolveAnew receiver key force e).2.registry.Entry key ⟨key, h⟩ := by
  have hp := resolveAnew_proceeds receiver key force e
  obtain ⟨slots, ha, hs⟩ := hp.advances
  obtain ⟨-, hslot, hhandles⟩ := candidate_eq_some hc
  have hmem := List.mem_of_getElem? (hplaced _ _ _ hslot)
  have htype : h.descriptor.typeName = c.typeName := by
    rw [hd]
    exact htyped _ _ hmem
  have hends : NoCycle (resolveAnew receiver key force e).2.registry.Leads →
      (resolveAnew receiver key force e).2.registry.SearchEnds key.namespaceName key.name
        key.typeName (some { c with handle := h }) := by
    intro hacyclic
    refine Ends.mono (resolveAnew_ends hc hacyclic) (fun c' => { c' with handle := h })
      (fun _ _ ht => ht) (fun t => ha.candidateOf_none hs) fun t c' hc' hown => ?_
    obtain rfl := Option.some.inj hc'
    obtain ⟨rfl, -⟩ := candidateOf_eq_some hown
    exact hself hown
  refine ⟨rfl, ?_, ?_, fun hacyclic => ?_, fun hacyclic _ => ⟨_, hends hacyclic, rfl⟩⟩
  · rw [handles_congr hd]
    exact hhandles
  · show h.descriptor ∈ registrations _ h.descriptor.typeName
    rw [registrations_congr hp.registered, htype, hd]
    exact hmem
  · show ReflTransGen _ key.typeName h.descriptor.typeName
    rw [htype]
    exact (hends hacyclic).reaches

/-- **What a direct search finds may be cached.** -/
theorem resolveAnew_entry (htyped : e.registry.Typed) (hplaced : e.registry.Placed)
    (hx : (resolveAnew receiver key force e).1 = .ok x) :
    (resolveAnew receiver key force e).2.registry.Entry key x := by
  have hdirect := resolveAnew_direct receiver key force e
  rw [hx] at hdirect
  cases hdirect with
  | taken hc _ hs =>
    refine entry_of_candidate htyped hplaced hc rfl fun hown => ?_
    rw [candidateOf, hs.slots]
    exact hown
  | instantiated hc _ _ hm hs =>
    have hd := (Platform.make_eq_ok hm).1
    exact entry_of_candidate htyped hplaced hc hd (candidateOf_fill_self hs.slots hd)

/-! ## A lookup -/

/-- What a lookup under a key does to a sound registry. -/
structure Answers (e : Engine) (key : PropertyKey) (answer : Except Fault Resolved) (e' : Engine) :
    Prop where
  sound : e'.registry.Sound
  proceeds : e.registry.Proceeds e'.registry
  /-- An answer is as good as what is cached, whether it is cached or not. -/
  entry : ∀ x, answer = .ok x → e'.registry.Entry key x
  /-- Under the key, nothing but the answer is cached afterwards, and elsewhere nothing new. -/
  cached : ∀ k x, e'.registry.cache.find? k = some x →
    (k = key ∧ answer = .ok x) ∨ (k ≠ key ∧ e.registry.cache.find? k = some x)

/-- A direct search leaves the cache alone. -/
theorem resolveAnew_cache (receiver : Value) (key : PropertyKey) (force : Bool) (e : Engine) :
    (resolveAnew receiver key force e).2.registry.cache = e.registry.cache := by
  obtain ⟨_, _, hs⟩ := (resolveAnew_direct receiver key force e).advance
  exact hs.cache

/-- A lookup that is answered from the cache. -/
theorem answers_of_valid (he : e.registry.Sound) (hkey : receiver.typeName = key.typeName)
    (hx : e.registry.cache.find? key = some x) (hv : x.isValid e.platform force = true) :
    Answers e key (resolve receiver key.namespaceName key.name force e).1
      (resolve receiver key.namespaceName key.name force e).2 := by
  have hrecalled := (lasting_recalled e.registry).resolve receiver key.namespaceName key.name force
    (.refl _ : e.registry.RecalledBy (e.record _).registry)
  obtain ⟨e', hrun, hs⟩ := resolve_of_valid receiver hkey hx hv
  rw [hrun] at hrecalled ⊢
  have hproceeds : e.registry.Proceeds e'.registry := ⟨hs.registered, hrecalled, _, .same, hs.slots⟩
  have hfind : ∀ k, e'.registry.cache.find? k = e.registry.cache.find? k := fun k => by
    rw [hs.cache, Recency.find?_get]
  refine ⟨he.proceeds hproceeds ?_ fun k y hy => ?_, hproceeds, fun y hy => ?_, fun k y hy => ?_⟩
  · rw [hs.cache]
    exact he.tidy.get key
  · rw [hfind] at hy
    exact .inl hy
  · rw [← Except.ok.inj hy]
    exact (he.entries key x hx).proceeds hproceeds
  · rw [hfind] at hy
    by_cases hk : k = key
    · rw [hk, hx] at hy
      exact .inl ⟨hk, congrArg Except.ok (Option.some.inj hy)⟩
    · exact .inr ⟨hk, hy⟩

/-- A lookup that searches, in an engine where nothing is cached under the key. -/
theorem answers_of_dropping (he : e.registry.Sound) (receiver : Value) (key : PropertyKey)
    (force : Bool) (journal : List Event) :
    Answers e key (resolveAndCache receiver key force (e.dropping key journal)).1
      (resolveAndCache receiver key force (e.dropping key journal)).2 := by
  have hp := resolveAnew_proceeds receiver key force (e.dropping key journal)
  have hentry : ∀ x, (resolveAnew receiver key force (e.dropping key journal)).1 = .ok x →
      (resolveAnew receiver key force (e.dropping key journal)).2.registry.Entry key x :=
    fun x => resolveAnew_entry he.typed he.placed
  have hcache : (resolveAnew receiver key force (e.dropping key journal)).2.registry.cache =
      e.registry.cache.missed key := resolveAnew_cache receiver key force _
  have hmissed : ∀ {k y}, (e.registry.cache.missed key).find? k = some y →
      k ≠ key ∧ e.registry.cache.find? k = some y := by
    intro k y hy
    rw [Recency.find?_missed] at hy
    split at hy
    · cases hy
    · exact ⟨‹_›, hy⟩
  rw [resolveAndCache]
  rcases hrun : resolveAnew receiver key force (e.dropping key journal) with ⟨f | x, e'⟩
  · rw [hrun] at hp hcache
    have hp' : e.registry.Proceeds e'.registry := hp.of_setCache
    rw [Act.bind_of_error hrun]
    refine ⟨he.proceeds hp' ?_ fun k y hy => ?_, hp', fun _ hx => (by cases hx), fun k y hy => ?_⟩
    · rw [hcache]
      exact he.tidy.missed key
    · rw [hcache] at hy
      exact .inl (hmissed hy).2
    · rw [hcache] at hy
      exact .inr (hmissed hy)
  · rw [hrun] at hp hcache hentry
    have hx := hentry x rfl
    have hp' : e.registry.Proceeds (e'.putCached x).registry := hp.of_setCache.setCache _
    rw [Act.bind_of_ok hrun]
    -- what is found is put under the key that was dropped before
    have hput : ∀ {k y}, (e'.putCached x).registry.cache.find? k = some y →
        (k = key ∧ y = x) ∨ (k ≠ key ∧ e.registry.cache.find? k = some y) := by
      intro k y hy
      rcases Recency.find?_put hy with ⟨hk, hy⟩ | ⟨-, hy⟩
      · exact .inl ⟨hk.trans hx.keyed, hy⟩
      · rw [hcache] at hy
        exact .inr (hmissed hy)
    have hx' : (e'.putCached x).registry.Entry key x := hx.setCache _
    refine ⟨he.proceeds hp' ?_ fun k y hy => ?_, hp', fun y hy => ?_, fun k y hy => ?_⟩
    · have htidy : e'.registry.cache.Tidy := by
        rw [hcache]
        exact he.tidy.missed key
      exact htidy.put x.key x
    · rcases hput hy with ⟨rfl, rfl⟩ | ⟨-, hy⟩
      · exact .inr hx'
      · exact .inl hy
    · rw [← Except.ok.inj hy]
      exact hx'
    · rcases hput hy with ⟨hk, rfl⟩ | hy
      · exact .inl ⟨hk, rfl⟩
      · exact .inr hy

/-- **A lookup keeps a registry sound, and its answer may be cached.** -/
theorem resolve_answers (he : e.registry.Sound) (receiver : Value)
    (namespaceName property : String) (force : Bool) :
    Answers e ⟨receiver.typeName, namespaceName, property⟩
      (resolve receiver namespaceName property force e).1
      (resolve receiver namespaceName property force e).2 := by
  let key : PropertyKey := ⟨receiver.typeName, namespaceName, property⟩
  have hkey : receiver.typeName = key.typeName := rfl
  by_cases hhit : ∃ x, e.registry.cache.find? key = some x ∧ x.isValid e.platform force = true
  · obtain ⟨x, hx, hv⟩ := hhit
    exact answers_of_valid he hkey hx hv
  · have hmiss : ∀ x, e.registry.cache.find? key = some x → x.isValid e.platform force = false :=
      fun x hx => Bool.eq_false_iff.2 fun hv => hhit ⟨x, hx, hv⟩
    obtain ⟨notes, hrun⟩ := resolve_of_invalid hkey hmiss
    rw [hrun]
    exact answers_of_dropping he receiver key force _

/-- Lookups, definitions and events keep the registry sound. -/
theorem steady_sound : Steady fun e => e.registry.Sound where
  record _ _ _ he := he
  resolve receiver namespaceName property force _ he :=
    (resolve_answers he receiver namespaceName property force).sound
  definition := definition_keeps fun _ _ _ he => he

end Engine

end Enablement

import Enablement.Proofs.Registry.Run
/-!
# Registry — the testers at hand

An engine asks testers of three sources: those that the host makes of a class, those that stand in
slots, and those that are cached. Lookups move them from one to the other and make up none, so what
holds of every tester at hand goes on to hold (`Engine.steady_everyTester`), and holds of the tester
that a lookup answers with.
-/

namespace Enablement

namespace Engine

open Registry

variable {T : Tester → Prop} {e e' : Engine} {static force : Bool} {key : PropertyKey}
  {slots : String → List (Option Handle)} {cache : Recency PropertyKey Resolved}
  {r : Except Fault Resolved}

/-- A property of testers holds of a handle's object, if it has one. -/
def HoldsOf (T : Tester → Prop) (h : Handle) : Prop := ∀ o, h.object = some o → T o.run

/-- A property of testers holds of all that an engine may come to ask. -/
structure EveryTester (T : Tester → Prop) (e : Engine) : Prop where
  made : ∀ className run, e.platform.classes.find? className = some (.tester run) → T run
  slotted : ∀ t h, some h ∈ e.registry.slots t → HoldsOf T h
  cached : ∀ key x, e.registry.cache.find? key = some x → HoldsOf T x.handle

/-- What the host makes of a dormant tester is one of its classes. -/
theorem EveryTester.make {h live : Handle} (he : e.EveryTester T)
    (hm : e.platform.make h = .ok live) : HoldsOf T live := by
  rw [Platform.make] at hm
  split at hm
  · cases hm
  · next run hclass =>
    obtain rfl := Except.ok.inj hm
    rintro o ⟨⟩
    exact he.made _ run hclass
  · cases hm

/-- The tester of a candidate stands in a slot. -/
theorem EveryTester.candidate (he : e.EveryTester T) {c : Candidate}
    (hc : e.candidate static key = some c) : HoldsOf T c.handle := by
  obtain ⟨-, hslot, -⟩ := candidate_eq_some hc
  exact he.slotted _ _ (List.mem_of_getElem? hslot)

/-- What stands in slots after one has changed stood there before, or is its new content. -/
theorem mem_fill {c : Candidate} {slot : Option Handle} {t : String} {h : Handle}
    (hh : some h ∈ e.registry.fill c slot t) : some h ∈ e.registry.slots t ∨ slot = some h := by
  rw [fill] at hh
  split at hh
  · exact (List.mem_or_eq_of_mem_set hh).imp_right Eq.symm
  · exact .inl hh

/-- What a search shows afterwards decides. -/
theorem EveryTester.shows (he : e.EveryTester T) (hs : Shows e e' slots cache)
    (hslots : ∀ t h, some h ∈ slots t → HoldsOf T h)
    (hcache : ∀ key x, cache.find? key = some x → HoldsOf T x.handle) : e'.EveryTester T where
  made := by
    obtain ⟨n, hp⟩ := hs.platform
    rw [hp]
    exact he.made
  slotted t h hh := hslots t h (by rwa [hs.slots] at hh)
  cached key x hx := hcache key x (by rwa [hs.cache] at hx)

/-- **A direct search answers with a tester at hand**, and leaves only such testers. -/
theorem EveryTester.direct (he : e.EveryTester T) (h : Direct e static key force r e') :
    e'.EveryTester T ∧ ∀ x, r = .ok x → HoldsOf T x.handle := by
  cases h with
  | unknown _ hs => exact ⟨he.shows hs he.slotted he.cached, nofun⟩
  | taken hc _ hs =>
    refine ⟨he.shows hs he.slotted he.cached, ?_⟩
    rintro x ⟨⟩
    exact he.candidate hc
  | instantiated hc _ _ hm hs =>
    have hlive := he.make hm
    refine ⟨he.shows hs (fun t h hh => ?_) he.cached, ?_⟩
    · rcases mem_fill hh with hh | hh
      · exact he.slotted t h hh
      · cases hh
        exact hlive
    · rintro x ⟨⟩
      exact hlive
  | refused _ _ _ _ hs =>
    refine ⟨he.shows hs (fun t h hh => ?_) he.cached, nofun⟩
    rcases mem_fill hh with hh | hh
    · exact he.slotted t h hh
    · cases hh

theorem EveryTester.dropping (he : e.EveryTester T) (key : PropertyKey) (journal : List Event) :
    (e.dropping key journal).EveryTester T := by
  refine he.shows (shows_dropping e key journal) he.slotted fun k x hx => ?_
  rw [Recency.find?_missed] at hx
  split at hx
  · cases hx
  · exact he.cached k x hx

/-- **A lookup answers with a tester at hand**, and leaves only such testers. -/
theorem EveryTester.resolves (he : e.EveryTester T) (h : Resolves e static key force r e') :
    e'.EveryTester T ∧ ∀ x, r = .ok x → HoldsOf T x.handle := by
  cases h with
  | cached hit _ hs =>
    refine ⟨he.shows hs he.slotted fun k x hx => ?_, ?_⟩
    · rw [Recency.find?_get] at hx
      exact he.cached k x hx
    · rintro _ ⟨⟩
      exact he.cached key _ hit
  | @found x e₁ journal _ hdirect =>
    obtain ⟨he₁, hx⟩ := (he.dropping key journal).direct hdirect
    have hfound := hx x rfl
    refine ⟨⟨he₁.made, he₁.slotted, fun k y hy => ?_⟩, ?_⟩
    · rcases Recency.find?_put hy with ⟨rfl, rfl⟩ | ⟨-, hy⟩
      · exact hfound
      · exact he₁.cached k y hy
    · rintro y ⟨⟩
      exact hfound
  | failed journal _ hdirect => exact (he.dropping key journal).direct hdirect

/-- **What holds of every tester at hand goes on to hold.** -/
theorem steady_everyTester (T : Tester → Prop) : Steady (EveryTester T) where
  record _ _ _ he := ⟨he.made, he.slotted, he.cached⟩
  resolve receiver namespaceName property force e he :=
    (he.resolves (resolve_resolves receiver ⟨_, namespaceName, property⟩ rfl force e)).1
  definition := definition_keeps fun _ _ _ he => ⟨he.made, he.slotted, he.cached⟩

/-- It holds of the tester that a lookup answers with. -/
theorem EveryTester.resolve (he : e.EveryTester T) {receiver : Value}
    {namespaceName property : String} {x : Resolved}
    (hx : (resolve receiver namespaceName property force e).1 = .ok x) : HoldsOf T x.handle :=
  (he.resolves (resolve_resolves receiver ⟨_, namespaceName, property⟩ rfl force e)).2 x hx

/-! ## Moves -/

/-- With the nodes and the cache forgotten, there are the testers of the host's classes only. -/
theorem everyTester_of_flush {r : Registry} (hr : e.registry = r.flush)
    (hmade : ∀ className run, e.platform.classes.find? className = some (.tester run) → T run) :
    e.EveryTester T where
  made := hmade
  slotted t h hh o ho := by
    -- a slot that is loaded anew holds a tester that has not been made yet
    rw [hr] at hh
    have hmap : some h ∈ (r.flush.registrations t).map fun d => some { descriptor := d } := hh
    obtain ⟨d, -, hd⟩ := List.mem_map.1 hmap
    cases hd
    cases ho
  cached key x hx := by
    rw [hr] at hx
    cases hx

/-- **A move makes up no testers.** -/
theorem EveryTester.perform (he : e.EveryTester T) (m : Move) : (m.perform e).EveryTester T := by
  cases m with
  | lookUp receiver namespaceName property force =>
    exact (steady_everyTester T).resolve _ _ _ _ e he
  | evaluate x ctx => exact evaluate_keeps (steady_everyTester T) x ctx e he
  | addTesters ds => exact everyTester_of_flush rfl he.made
  | removeContributor contributor => exact everyTester_of_flush rfl he.made
  | registryChanged => exact everyTester_of_flush rfl he.made
  | activate contributor => exact ⟨he.made, he.slotted, he.cached⟩
  | deactivate contributor => exact ⟨he.made, he.slotted, he.cached⟩

/-- An engine that has just been made has the testers of its host's classes only. -/
theorem everyTester_make {platform : Platform} {options : Options} {handlers : List Handler}
    (hmade : Engine.make platform options handlers = .ok e)
    (h : ∀ className run, platform.classes.find? className = some (.tester run) → T run) :
    e.EveryTester T := by
  rw [Engine.make, Options.validate] at hmade
  split at hmade
  · cases hmade
  · obtain rfl := Except.ok.inj hmade
    exact everyTester_of_flush (r := .empty options.capacity) rfl h

end Engine

end Enablement

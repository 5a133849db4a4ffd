import Enablement.Proofs.Recency
import Enablement.Proofs.Registry.Search
/-!
# Registry — what a lookup does

A direct search ends in one of four ways, which depend on its candidate: there is none, its tester
is taken as it is, the host makes the tester, or it refuses (`Direct`). A lookup either answers from
the cache or drops what is cached under the key, searches, and caches what it finds (`Resolves`).
These two relations say everything that a lookup can do; what holds of lookups is proved from them.
-/

namespace Enablement

/-- The handle with the object that the host makes for it, or the host's refusal. -/
def Platform.make (p : Platform) (h : Handle) : Except Fault Handle :=
  match p.classes.find? h.descriptor.className with
  | none => .error (.classNotFound h.descriptor.className h.descriptor.contributor)
  | some (.tester run) => .ok { h with object := some { number := p.objectCount, run } }
  | some .other => .error (.notATester h.descriptor.className h.descriptor.contributor)

/-- What the host makes is an instance of the same declaration. -/
theorem Platform.make_eq_ok {p : Platform} {h live : Handle} (hm : p.make h = .ok live) :
    live.descriptor = h.descriptor ∧ live.isInstantiated = true := by
  rw [Platform.make] at hm
  split at hm
  · cases hm
  · obtain rfl := Except.ok.inj hm
    exact ⟨rfl, rfl⟩
  · cases hm

/-- The slots of all types after one slot has been filled or cleared. -/
def Registry.fill (r : Registry) (c : Registry.Candidate) (slot : Option Handle) (t : String) :
    List (Option Handle) :=
  if t = c.typeName then (r.slots t).set c.place slot else r.slots t

/-- This looks at the slots only. -/
theorem Registry.fill_congr {r r' : Registry} (h : ∀ t, r'.slots t = r.slots t)
    (c : Registry.Candidate) (slot : Option Handle) : r'.fill c slot = r.fill c slot := by
  funext t
  rw [Registry.fill, Registry.fill, h]

/-- What is left of a cache after nothing valid was found under a key. -/
def Recency.missed {κ β : Type} [DecidableEq κ] (r : Recency κ β) (k : κ) : Recency κ β :=
  match r.get k with
  | (none, _) => r
  | (some _, used) => used.remove k

/-- Then nothing is found under the key, and all else is as before. -/
@[simp] theorem Recency.find?_missed {κ β : Type} [DecidableEq κ] (r : Recency κ β) (k k' : κ) :
    (r.missed k).find? k' = if k' = k then none else r.find? k' := by
  have hfst := r.get_fst k
  have hsnd := r.find?_get k k'
  rw [Recency.missed]
  rcases hget : r.get k with ⟨_ | v, used⟩
  · rw [hget] at hfst
    show r.find? k' = _
    split
    · rename_i hk
      rw [hk, ← hfst]
    · rfl
  · rw [hget] at hsnd
    show (used.remove k).find? k' = _
    rw [Recency.find?_remove, hsnd]

/-- Its capacity is the same. -/
@[simp] theorem Recency.missed_capacity {κ β : Type} [DecidableEq κ] (r : Recency κ β) (k : κ) :
    (r.missed k).capacity = r.capacity := by
  have hget := r.get_capacity k
  rw [Recency.missed]
  rcases h : r.get k with ⟨_ | v, used⟩
  · rfl
  · rw [h] at hget
    exact hget

/-- It is tidy if the cache was. -/
theorem Recency.Tidy.missed {κ β : Type} [DecidableEq κ] {r : Recency κ β} (h : r.Tidy) (k : κ) :
    (r.missed k).Tidy := by
  have hused := h.get k
  rw [Recency.missed]
  rcases hget : r.get k with ⟨_ | v, used⟩
  · exact h
  · rw [hget] at hused
    exact hused.remove k

namespace Engine

open Registry

/-! ## What an engine shows -/

/-- An engine shows given slots and a given cache, and all else that matters to lookups is as it was
in an earlier engine: objects may have been made and events recorded. -/
structure Shows (e e' : Engine) (slots : String → List (Option Handle))
    (cache : Recency PropertyKey Resolved) : Prop where
  platform : ∃ n, e'.platform = { e.platform with objectCount := n }
  options : e'.options = e.options
  handlers : e'.handlers = e.handlers
  definitions : e'.definitions = e.definitions
  registered : e'.registry.registered = e.registry.registered
  superTypes : ∀ t, e'.registry.superTypes e.platform t = e.registry.superTypes e.platform t
  slots : ∀ t, e'.registry.slots t = slots t
  cache : e'.registry.cache = cache

variable {e e₁ e₂ : Engine} {s s' : String → List (Option Handle)}
  {c c' : Recency PropertyKey Resolved}

theorem Alike.shows (h : Alike e e₁) : Shows e e₁ e.registry.slots e.registry.cache :=
  ⟨⟨_, h.platform⟩, h.options, h.handlers, h.definitions, h.registered, h.superTypes, h.slots,
    h.cache⟩

theorem Shows.trans (h : Shows e e₁ s c) (h' : Shows e₁ e₂ s' c') : Shows e e₂ s' c' := by
  obtain ⟨n, hp⟩ := h.platform
  obtain ⟨n', hp'⟩ := h'.platform
  refine ⟨⟨n', by rw [hp', hp]⟩, h'.options.trans h.options, h'.handlers.trans h.handlers,
    h'.definitions.trans h.definitions, h'.registered.trans h.registered, fun t => ?_, h'.slots,
    h'.cache⟩
  have hsupers := h'.superTypes t
  rw [hp] at hsupers
  exact hsupers.trans (h.superTypes t)

/-- Recording an event shows nothing new. -/
theorem Shows.record (h : Shows e e₁ s c) (ev : Event) : Shows e (e₁.record ev) s c :=
  { h with }

/-- Tracing lookups leaves log lines only. -/
theorem noteResolving_eq (n : Note) (e : Engine) :
    ∃ notes : List Note,
      e.noteResolving n = { e with journal := e.journal ++ notes.map .noted } := by
  rw [Engine.noteResolving]
  split
  · exact ⟨[n], rfl⟩
  · exact ⟨[], by rw [List.map_nil, List.append_nil]⟩

theorem Shows.noteResolving (h : Shows e e₁ s c) (n : Note) : Shows e (e₁.noteResolving n) s c := by
  rw [Engine.noteResolving]
  split
  · exact h.record _
  · exact h

/-- Changing the cache shows in the cache. -/
theorem Shows.setCache (h : Shows e e₁ s c) (c' : Recency PropertyKey Resolved) :
    Shows e { e₁ with registry := { e₁.registry with cache := c' } } s c' :=
  { h with cache := rfl }

/-- Filling or clearing a slot shows in that slot. -/
theorem Shows.setSlot (h : Shows e e₁ e.registry.slots e.registry.cache) (d : Candidate)
    (slot : Option Handle) :
    Shows e (e₁.setSlot d.typeName d.place slot) (e.registry.fill d slot) e.registry.cache := by
  refine { h with superTypes := fun t => ?_, slots := fun t => ?_ }
  · exact (superTypes_setSlots _).trans (h.superTypes t)
  · rw [Engine.setSlot, slots_setSlots, h.slots, fill]
    split
    · rename_i ht
      rw [ht]
    · rw [h.slots]

/-! ## Instantiating -/

/-- Instantiating a declared tester asks the host for an object. -/
theorem instantiate_declared (d : Descriptor) (e : Engine) :
    instantiate { descriptor := d } e = (createObject d.className d.contributor >>= fun c =>
      match c with
      | .tester run =>
        pure { descriptor := d, object := some { number := e.platform.objectCount, run } }
      | .other => Act.fail (.notATester d.className d.contributor)) e := rfl

/-- The host makes an object of a class that it knows. -/
theorem createObject_of_find? {className : String} {c : HostClass} (contributor : String)
    (h : e.platform.classes.find? className = some c) :
    ∃ e₁, createObject className contributor e = (.ok c, e₁) ∧
      Shows e e₁ e.registry.slots e.registry.cache := by
  rw [createObject, h]
  exact ⟨_, rfl, ⟨_, rfl⟩, rfl, rfl, rfl, rfl, fun _ => rfl, fun _ => rfl, rfl⟩

/-- Instantiating ends as the host says. -/
theorem instantiate_eq {h : Handle} (hd : h.isInstantiated = false) (e : Engine) :
    ∃ e₁, instantiate h e = (e.platform.make h, e₁) ∧
      Shows e e₁ e.registry.slots e.registry.cache := by
  obtain ⟨d, object⟩ := h
  cases object with
  | some o => cases hd
  | none =>
    rw [instantiate_declared, Platform.make]
    cases hc : e.platform.classes.find? d.className with
    | none =>
      have hcreate : createObject d.className d.contributor e =
          (.error (.classNotFound d.className d.contributor), e) := by
        rw [createObject, hc]
      exact ⟨e, by rw [Act.bind_of_error hcreate], (Alike.refl e).shows⟩
    | some c =>
      obtain ⟨e₁, hcreate, hs⟩ := createObject_of_find? d.contributor hc
      refine ⟨e₁, ?_, hs⟩
      rw [Act.bind_of_ok hcreate]
      cases c with
      | tester run => rfl
      | other => rfl

/-- Instantiating the tester of a candidate ends as the host says, and the slot holds what the host
has made. -/
theorem instantiateSlot_eq {c : Candidate} (hd : c.handle.isInstantiated = false) (e : Engine) :
    ∃ e₁, instantiateSlot c.typeName c.place c.handle e = (e.platform.make c.handle, e₁) ∧
      Shows e e₁ (e.registry.fill c (e.platform.make c.handle).toOption) e.registry.cache := by
  obtain ⟨e₁, h₁, hs₁⟩ := instantiate_eq hd (e.record (.requested c.typeName c.place))
  have hs := ((Alike.refl e).shows.record (.requested c.typeName c.place)).trans hs₁
  change instantiate c.handle _ = (e.platform.make c.handle, e₁) at h₁
  rw [instantiateSlot, h₁]
  cases hm : e.platform.make c.handle with
  | ok live =>
    have hnoted := hs.noteResolving (.instantiated c.handle.descriptor.id)
    exact ⟨_, rfl, hnoted.setSlot c (some live)⟩
  | error f =>
    have hcleared := hs.setSlot c none
    exact ⟨_, rfl, hcleared.record _⟩

/-! ## A direct search -/

/-- How a direct search can end, and what it leaves behind. -/
inductive Direct (e : Engine) (static : Bool) (key : PropertyKey) (force : Bool) :
    Except Fault Resolved → Engine → Prop
  /-- No slot answers. -/
  | unknown {e'} (missing : e.candidate static key = none)
    (shows : Shows e e' e.registry.slots e.registry.cache) :
    Direct e static key force (.error (.unknownProperty key.namespaceName key.name key.typeName)) e'
  /-- The tester is taken as it is. -/
  | taken {c e'} (found : e.candidate static key = some c)
    (asIs : c.handle.isInstantiated = true ∨ force = false ∧ c.handle.isActive e.platform = false)
    (shows : Shows e e' e.registry.slots e.registry.cache) :
    Direct e static key force (.ok ⟨key, c.handle⟩) e'
  /-- The host makes the tester, which stays in its slot. -/
  | instantiated {c live e'} (found : e.candidate static key = some c)
    (dormant : c.handle.isInstantiated = false)
    (wanted : force = true ∨ c.handle.isActive e.platform = true)
    (made : e.platform.make c.handle = .ok live)
    (shows : Shows e e' (e.registry.fill c live) e.registry.cache) :
    Direct e static key force (.ok ⟨key, live⟩) e'
  /-- The host refuses, and the slot is cleared. -/
  | refused {c fault e'} (found : e.candidate static key = some c)
    (dormant : c.handle.isInstantiated = false)
    (wanted : force = true ∨ c.handle.isActive e.platform = true)
    (refused : e.platform.make c.handle = .error fault)
    (shows : Shows e e' (e.registry.fill c none) e.registry.cache) :
    Direct e static key force (.error fault) e'

/-- A tester is taken as it is, or it is dormant and wanted. -/
theorem asIs_or_wanted (h : Handle) (p : Platform) (force : Bool) :
    (h.isInstantiated = true ∨ force = false ∧ h.isActive p = false) ∨
      h.isInstantiated = false ∧ (force = true ∨ h.isActive p = true) := by
  cases h.isInstantiated <;> cases force <;> cases h.isActive p <;> simp

/-- A dormant tester that is wanted is instantiated. -/
theorem settle_of_wanted {d : Candidate} {force : Bool} (hd : d.handle.isInstantiated = false)
    (hw : force = true ∨ d.handle.isActive e.platform = true) :
    settle force (some d) e =
      (instantiateSlot d.typeName d.place d.handle >>= fun live => pure (some live)) e := by
  rw [settle, Act.read_bind, if_pos]
  rw [hd]
  simpa using hw

/-- Any other one is taken as it is. -/
theorem settle_of_asIs {d : Candidate} {force : Bool}
    (h : d.handle.isInstantiated = true ∨ force = false ∧ d.handle.isActive e.platform = false) :
    settle force (some d) e = (.ok (some d.handle), e) := by
  rw [settle, Act.read_bind, if_neg]
  · rfl
  · rcases h with h | ⟨h, h'⟩
    · simp [h]
    · simp [h, h']

/-- Asking for the tester of a candidate ends in one of the last three ways. The engine is the one
before the search up to what has been remembered. -/
theorem settle_direct {static : Bool} {key : PropertyKey} {force : Bool} {d : Candidate}
    {k : Option Handle → Act Resolved} (hc : e.candidate static key = some d)
    (hk : ∀ h, k (some h) = pure ⟨key, h⟩) (he : Alike e e₁) :
    Direct e static key force ((settle force (some d) >>= k) e₁).1
      ((settle force (some d) >>= k) e₁).2 := by
  rcases asIs_or_wanted d.handle e.platform force with has | ⟨hd, hw⟩
  · have hsettle := settle_of_asIs (he.platform ▸ has : _ ∨ _ ∧ d.handle.isActive e₁.platform = _)
    have hrun : (settle force (some d) >>= k) e₁ = (.ok ⟨key, d.handle⟩, e₁) := by
      rw [Act.bind_of_ok hsettle, hk]
      rfl
    rw [hrun]
    exact .taken hc has he.shows
  · have hsettle := settle_of_wanted hd (he.platform ▸ hw : _ ∨ d.handle.isActive e₁.platform = _)
    obtain ⟨e₂, h₂, hs₂⟩ := instantiateSlot_eq hd e₁
    rw [he.platform, fill_congr he.slots, he.cache] at hs₂
    rw [he.platform] at h₂
    have hs := he.shows.trans hs₂
    cases hm : e.platform.make d.handle with
    | ok live =>
      rw [hm] at h₂ hs
      have hrun : (settle force (some d) >>= k) e₁ = (.ok ⟨key, live⟩, e₂) := by
        rw [Act.bind_of_ok (hsettle.trans (Act.bind_of_ok h₂ _)), hk]
        rfl
      rw [hrun]
      exact .instantiated hc hd hw hm hs
    | error f =>
      rw [hm] at h₂ hs
      have hrun : (settle force (some d) >>= k) e₁ = (.error f, e₂) :=
        Act.bind_of_error (hsettle.trans (Act.bind_of_error h₂ _)) _
      rw [hrun]
      exact .refused hc hd hw hm hs

/-- **A direct search ends in one of the four ways.** -/
theorem resolveAnew_direct (receiver : Value) (key : PropertyKey) (force : Bool) (e : Engine) :
    Direct e (isStatic receiver) key force (resolveAnew receiver key force e).1
      (resolveAnew receiver key force e).2 := by
  obtain ⟨e₁, he₁, h₁⟩ := find_eq key force (isStatic receiver) e
  rw [resolveAnew]
  cases hc : e.candidate (isStatic receiver) key with
  | none =>
    rw [hc] at h₁
    rw [Act.bind_of_ok h₁]
    exact .unknown hc he₁.shows
  | some d =>
    rw [hc] at h₁
    rw [Act.bind_congr h₁]
    exact settle_direct hc (fun _ => rfl) he₁

/-- What a direct search answers: it depends on the candidate, on who is active and on what the host
makes. -/
def directAnswer (e : Engine) (static : Bool) (key : PropertyKey) (force : Bool) :
    Except Fault Resolved :=
  match e.candidate static key with
  | none => .error (.unknownProperty key.namespaceName key.name key.typeName)
  | some d =>
    if d.handle.isInstantiated = false ∧ (force = true ∨ d.handle.isActive e.platform = true) then
      (e.platform.make d.handle).map fun live => ⟨key, live⟩
    else .ok ⟨key, d.handle⟩

/-- The four ways differ in their answers as the candidate says. -/
theorem Direct.answer {static : Bool} {key : PropertyKey} {force : Bool} {r : Except Fault Resolved}
    (h : Direct e static key force r e₁) : r = e.directAnswer static key force := by
  cases h with
  | unknown hc _ => rw [directAnswer, hc]
  | taken hc has _ =>
    rw [directAnswer, hc]
    refine (if_neg ?_).symm
    rcases has with h | ⟨h, h'⟩
    · simp [h]
    · simp [h, h']
  | instantiated hc hd hw hm _ =>
    rw [directAnswer, hc]
    dsimp only
    rw [if_pos ⟨hd, hw⟩, hm]
    rfl
  | refused hc hd hw hm _ =>
    rw [directAnswer, hc]
    dsimp only
    rw [if_pos ⟨hd, hw⟩, hm]
    rfl

/-! ## A lookup -/

/-- The engine after nothing valid was found in the cache: what was found is dropped. -/
def dropping (e : Engine) (key : PropertyKey) (journal : List Event) : Engine :=
  { e with registry := { e.registry with cache := e.registry.cache.missed key }, journal }

/-- A search answers as before. -/
theorem directAnswer_dropping (static : Bool) (key dropped : PropertyKey) (force : Bool)
    (journal : List Event) :
    (e.dropping dropped journal).directAnswer static key force =
      e.directAnswer static key force := by
  have hcandidate : (e.dropping dropped journal).candidate static key = e.candidate static key := by
    cases static with
    | true => rfl
    | false =>
      have hsearched := searched_congr (r := e.registry) (p := e.platform)
        (fun _ => rfl : ∀ t, (e.dropping dropped journal).registry.superTypes e.platform t = _)
        (e.registry.searchDepth e.platform) key.typeName
      rw [Engine.candidate, Engine.candidate]
      exact congrArg _ hsearched
  rw [directAnswer, directAnswer, hcandidate]
  rfl

/-- How a lookup can end, and what it leaves behind. -/
inductive Resolves (e : Engine) (static : Bool) (key : PropertyKey) (force : Bool) :
    Except Fault Resolved → Engine → Prop
  /-- What is cached is valid. -/
  | cached {r e'} (hit : e.registry.cache.find? key = some r)
    (valid : r.isValid e.platform force = true)
    (shows : Shows e e' e.registry.slots (e.registry.cache.get key).2) :
    Resolves e static key force (.ok r) e'
  /-- Nothing valid is cached, and the search finds a tester. -/
  | found {r e'} (journal : List Event)
    (miss : ∀ r, e.registry.cache.find? key = some r → r.isValid e.platform force = false)
    (direct : Direct (e.dropping key journal) static key force (.ok r) e') :
    Resolves e static key force (.ok r) (putCached r e')
  /-- Nothing valid is cached, and the search fails. -/
  | failed {fault e'} (journal : List Event)
    (miss : ∀ r, e.registry.cache.find? key = some r → r.isValid e.platform force = false)
    (direct : Direct (e.dropping key journal) static key force (.error fault) e') :
    Resolves e static key force (.error fault) e'

/-- A valid entry is an answer, and has been used. -/
theorem cached?_of_valid {key : PropertyKey} {force : Bool} {r : Resolved}
    (hr : e.registry.cache.find? key = some r) (hv : r.isValid e.platform force = true) :
    cached? key force e = (.ok (some r),
      { e with registry := { e.registry with cache := (e.registry.cache.get key).2 } }) := by
  have hfst := e.registry.cache.get_fst key
  rw [hr] at hfst
  rw [cached?]
  rcases hget : e.registry.cache.get key with ⟨o, used⟩
  rw [hget] at hfst
  dsimp only at hfst
  subst hfst
  dsimp only
  rw [if_pos hv]

/-- Otherwise there is no answer, and nothing is left under the key. -/
theorem cached?_of_invalid {key : PropertyKey} {force : Bool}
    (hr : ∀ r, e.registry.cache.find? key = some r → r.isValid e.platform force = false) :
    cached? key force e = (.ok none,
      { e with registry := { e.registry with cache := e.registry.cache.missed key } }) := by
  have hfst := e.registry.cache.get_fst key
  rw [cached?, Recency.missed]
  rcases hget : e.registry.cache.get key with ⟨_ | r, used⟩
  · rfl
  · rw [hget] at hfst
    dsimp only
    rw [if_neg]
    simp [hr r hfst.symm]

/-- Searches, and caches what is found. -/
def resolveAndCache (receiver : Value) (key : PropertyKey) (force : Bool) : Act Resolved := do
  let r ← resolveAnew receiver key force
  Act.change (putCached r)
  pure r

variable {receiver : Value} {key : PropertyKey} {force : Bool}

/-- A lookup that finds a valid entry answers with it. -/
theorem resolve_of_valid (receiver : Value) {r : Resolved} (hkey : receiver.typeName = key.typeName)
    (hr : e.registry.cache.find? key = some r) (hv : r.isValid e.platform force = true) :
    ∃ e', resolve receiver key.namespaceName key.name force e = (.ok r, e') ∧
      Shows e e' e.registry.slots (e.registry.cache.get key).2 := by
  have hc : cached? key force (e.record (.lookedUp key force)) = _ := cached?_of_valid hr hv
  have hs := ((Alike.refl e).shows.record (.lookedUp key force)).setCache
    (e.registry.cache.get key).2
  rw [resolve, hkey]
  exact ⟨_, Act.bind_of_ok hc _, hs.noteResolving _⟩

/-- A lookup that finds none searches, in an engine where nothing is cached under the key and where
the lookup is in the journal, with log lines at most behind it. -/
theorem resolve_of_invalid (hkey : receiver.typeName = key.typeName)
    (hr : ∀ r, e.registry.cache.find? key = some r → r.isValid e.platform force = false) :
    ∃ notes : List Note, resolve receiver key.namespaceName key.name force e =
      resolveAndCache receiver key force
        (e.dropping key (e.journal ++ .lookedUp key force :: notes.map .noted)) := by
  have hc : cached? key force (e.record (.lookedUp key force)) = _ := cached?_of_invalid hr
  obtain ⟨notes, hnoted⟩ := noteResolving_eq (.cacheMiss key)
    ((e.record (.lookedUp key force)).dropping key (e.record (.lookedUp key force)).journal)
  have hjournal : e.journal ++ .lookedUp key force :: notes.map .noted =
      (e.record (.lookedUp key force)).journal ++ notes.map .noted := by
    rw [Engine.record, List.append_assoc, List.singleton_append]
  refine ⟨notes, ?_⟩
  rw [resolve, hkey, hjournal]
  refine (Act.bind_of_ok hc _).trans ?_
  exact congrArg (resolveAndCache receiver key force) hnoted

/-- **A lookup ends in one of the three ways.** -/
theorem resolve_resolves (receiver : Value) (key : PropertyKey)
    (hkey : receiver.typeName = key.typeName) (force : Bool) (e : Engine) :
    Resolves e (isStatic receiver) key force
      (resolve receiver key.namespaceName key.name force e).1
      (resolve receiver key.namespaceName key.name force e).2 := by
  by_cases hhit : ∃ r, e.registry.cache.find? key = some r ∧ r.isValid e.platform force = true
  · obtain ⟨r, hr, hv⟩ := hhit
    obtain ⟨e', hrun, hs⟩ := resolve_of_valid receiver hkey hr hv
    rw [hrun]
    exact .cached hr hv hs
  · have hmiss : ∀ r, e.registry.cache.find? key = some r → r.isValid e.platform force = false :=
      fun r hr => Bool.eq_false_iff.2 fun hv => hhit ⟨r, hr, hv⟩
    obtain ⟨notes, hrun⟩ := resolve_of_invalid hkey hmiss
    rw [hrun, resolveAndCache]
    generalize e.journal ++ .lookedUp key force :: notes.map .noted = journal
    have hdirect := resolveAnew_direct receiver key force (e.dropping key journal)
    rcases h : resolveAnew receiver key force (e.dropping key journal) with ⟨r | f, e'⟩
    · rw [h] at hdirect
      rw [Act.bind_of_error h]
      exact .failed journal hmiss hdirect
    · rw [h] at hdirect
      rw [Act.bind_of_ok h]
      exact .found journal hmiss hdirect

end Engine

end Enablement

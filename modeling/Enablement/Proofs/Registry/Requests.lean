import Enablement.Proofs.Registry.History
/-!
# Registry — what the host is asked for

A lookup asks the host for one object at most, on behalf of a registration whose slot is dormant,
and it does so only with force or while the contributor is active (`Attempt`). Whether the host
makes the object or refuses, the slot is spent: it holds the object or is cleared, and no search
takes it for dormant again. So as long as the registrations stay, the host is asked for the object
of each of them at most once, whichever lookups and evaluations lead there (`requests_nodup`).
-/

namespace Enablement

/-- The registration that the host is asked for the object of: its type, and its place there. -/
def Event.request? : Event → Option (String × Nat)
  | .requested typeName place => some (typeName, place)
  | _ => none

theorem Event.request?_of_isRemark {ev : Event} (h : ev.isRemark = true) : ev.request? = none := by
  cases ev with
  | requested typeName place => cases h
  | _ => rfl

/-- The registrations that the host is asked for the objects of, in order. -/
def requests (events : List Event) : List (String × Nat) := events.filterMap Event.request?

@[simp] theorem requests_append (events events' : List Event) :
    requests (events ++ events') = requests events ++ requests events' :=
  List.filterMap_append

@[simp] theorem requests_cons_lookedUp (key : PropertyKey) (force : Bool) (events : List Event) :
    requests (.lookedUp key force :: events) = requests events := rfl

@[simp] theorem requests_notes (notes : List Note) : requests (notes.map .noted) = [] := by
  induction notes with
  | nil => rfl
  | cons n notes ih => exact ih

/-! ## Spent slots -/

namespace Registry

variable {r r' : Registry} {c : Candidate} {slot : Option Handle} {t : String} {i : Nat}

/-- A slot that holds no dormant tester: it has been filled or cleared. -/
def Spent (r : Registry) (t : String) (i : Nat) : Prop :=
  ∀ h, (r.slots t)[i]? = some (some h) → h.isInstantiated = true

theorem Spent.congr (hr : r'.Holds r.slots) (h : r.Spent t i) : r'.Spent t i := by
  intro live hi
  rw [hr] at hi
  exact h live hi

/-- Filling a slot with an instance, or clearing it, leaves spent slots so. -/
theorem Spent.fill (hr : r'.Holds (r.fill c slot))
    (hslot : ∀ h, slot = some h → h.isInstantiated = true) (h : r.Spent t i) : r'.Spent t i := by
  intro live hi
  rw [hr, Registry.fill] at hi
  split at hi
  · rename_i ht
    subst ht
    rw [List.getElem?_set] at hi
    split at hi
    · split at hi
      · exact hslot live (Option.some.inj hi)
      · cases hi
    · exact h live hi
  · exact h live hi

/-- The slot itself is spent by it. -/
theorem spent_fill_self (hr : r'.Holds (r.fill c slot))
    (hslot : ∀ h, slot = some h → h.isInstantiated = true) : r'.Spent c.typeName c.place := by
  intro live hi
  rw [hr, Registry.fill, if_pos rfl, List.getElem?_set, if_pos rfl] at hi
  split at hi
  · exact hslot live (Option.some.inj hi)
  · cases hi

/-- A dormant slot is not spent. -/
theorem not_spent (hc : (r.slots c.typeName)[c.place]? = some (some c.handle))
    (hd : c.handle.isInstantiated = false) : ¬ r.Spent c.typeName c.place := by
  intro h
  rw [h c.handle hc] at hd
  cases hd

end Registry

namespace Engine

open Registry

variable {e e' e₁ : Engine} {receiver : Value} {key : PropertyKey} {force : Bool}
  {events : List Event}

/-! ## What instantiating records -/

/-- The host is asked for one object at most. -/
theorem createObject_journal (className contributor : String) (e : Engine) :
    ∃ made, (createObject className contributor e).2.journal = e.journal ++ made ∧
      (made = [] ∨ made = [.created className]) := by
  rw [createObject]
  split
  · exact ⟨[], (List.append_nil _).symm, .inl rfl⟩
  · exact ⟨[.created className], rfl, .inr rfl⟩

theorem instantiate_journal {h : Handle} (hd : h.isInstantiated = false) (e : Engine) :
    ∃ made, (instantiate h e).2.journal = e.journal ++ made ∧
      (made = [] ∨ made = [.created h.descriptor.className]) := by
  obtain ⟨d, object⟩ := h
  cases object with
  | some o => cases hd
  | none =>
    obtain ⟨made, hj, hmade⟩ := createObject_journal d.className d.contributor e
    refine ⟨made, ?_, hmade⟩
    rw [instantiate_declared, Act.bind_apply]
    rcases hrun : createObject d.className d.contributor e with ⟨_ | c, e'⟩
    · rw [hrun] at hj
      exact hj
    · rw [hrun] at hj
      cases c with
      | tester run => exact hj
      | other => exact hj

/-- Instantiating the tester in a slot records the request first, and log lines in the end. -/
theorem instantiateSlot_journal (t : String) (i : Nat) {h : Handle} (hd : h.isInstantiated = false)
    (e : Engine) :
    ∃ (made : List Event) (notes : List Note),
      (instantiateSlot t i h e).2.journal =
        e.journal ++ .requested t i :: (made ++ notes.map .noted) ∧
      (made = [] ∨ made = [.created h.descriptor.className]) := by
  obtain ⟨made, hj, hmade⟩ := instantiate_journal hd (e.record (.requested t i))
  rw [instantiateSlot]
  rcases hrun : instantiate h (e.record (.requested t i)) with ⟨f | live, e'⟩
  · rw [hrun] at hj
    refine ⟨made, [.notInstantiated h.descriptor.id f], ?_, hmade⟩
    show e'.journal ++ [_] = _
    rw [hj]
    simp [Engine.record]
  · rw [hrun] at hj
    obtain ⟨notes, hn⟩ := noteResolving_eq (.instantiated h.descriptor.id) e'
    refine ⟨made, notes, ?_, hmade⟩
    show (e'.noteResolving (.instantiated h.descriptor.id)).journal = _
    rw [hn, hj]
    simp [Engine.record]

/-! ## What a lookup asks for -/

/-- What a lookup asks the host for, in events, and what it makes of the slots. -/
inductive Attempt (e : Engine) (key : PropertyKey) (force : Bool) (e' : Engine) : List Event → Prop
  /-- Nothing, and the slots are as they were. -/
  | nothing (slots : e'.registry.Holds e.registry.slots) : Attempt e key force e' []
  /-- The object of a registration that is dormant, answers for the property and is wanted. The host
  makes one, or knows no such class; the slot holds an instance afterwards, or nothing. -/
  | object {c : Candidate} {slot : Option Handle} {made : List Event} {notes : List Note}
    (holds : (e.registry.slots c.typeName)[c.place]? = some (some c.handle))
    (handles : c.handle.handles key.namespaceName key.name = true)
    (dormant : c.handle.isInstantiated = false)
    (wanted : force = true ∨ c.handle.isActive e.platform = true)
    (slots : e'.registry.Holds (e.registry.fill c slot))
    (spent : ∀ h, slot = some h → h.isInstantiated = true)
    (made_eq : made = [] ∨ made = [.created c.handle.descriptor.className]) :
    Attempt e key force e' (.requested c.typeName c.place :: (made ++ notes.map .noted))

/-- Only the slots of the engine afterwards matter, and only slots and who is active before. -/
theorem Attempt.congr {e₀ : Engine} (h : Attempt e key force e₁ events)
    (hslots : e.registry.slots = e₀.registry.slots) (hactive : e.platform = e₀.platform)
    (hafter : e'.registry.slots = e₁.registry.slots) : Attempt e₀ key force e' events := by
  have hholds : ∀ {slots}, e₁.registry.Holds slots → e'.registry.Holds slots := fun hs t => by
    rw [hafter, hs]
  cases h with
  | nothing slots =>
    refine .nothing (hholds ?_)
    rw [← hslots]
    exact slots
  | object holds handles dormant wanted slots spent made_eq =>
    rw [fill_congr (congrFun hslots)] at slots
    rw [hslots] at holds
    rw [hactive] at wanted
    exact .object holds handles dormant wanted (hholds slots) spent made_eq

/-- Taking the tester of a candidate records what is asked for, and nothing else. -/
theorem settle_records {static : Bool} {c : Candidate} (hc : e.candidate static key = some c)
    (he : Alike e e₁) :
    ∃ events, (settle force (some c) e₁).2.journal = e.journal ++ events ∧
      Attempt e key force (settle force (some c) e₁).2 events := by
  obtain ⟨-, hslot, hhandles⟩ := candidate_eq_some hc
  rcases asIs_or_wanted c.handle e₁.platform force with has | ⟨hd, hw⟩
  · rw [settle_of_asIs has]
    exact ⟨[], by rw [he.journal, List.append_nil], .nothing he.slots⟩
  · obtain ⟨e₂, hrun, hs⟩ := instantiateSlot_eq hd e₁
    obtain ⟨made, notes, hj, hmade⟩ := instantiateSlot_journal c.typeName c.place hd e₁
    have hsnd : (settle force (some c) e₁).2 = e₂ := by
      rw [settle_of_wanted hd hw, Act.bind_apply, hrun]
      cases e₁.platform.make c.handle <;> rfl
    rw [hrun, he.journal] at hj
    rw [fill_congr he.slots, he.platform] at hs
    rw [he.platform] at hw
    have hmade' : ∀ live, (e.platform.make c.handle).toOption = some live →
        live.isInstantiated = true := by
      intro live hlive
      cases hm : e.platform.make c.handle with
      | error f =>
        rw [hm] at hlive
        cases hlive
      | ok h =>
        rw [hm] at hlive
        obtain rfl := Option.some.inj hlive
        exact (Platform.make_eq_ok hm).2
    rw [hsnd]
    exact ⟨_, hj, .object hslot hhandles hd hw hs.slots hmade' hmade⟩

/-- A direct search records what it asks for, and nothing else. -/
theorem resolveAnew_records (receiver : Value) (key : PropertyKey) (force : Bool) (e : Engine) :
    ∃ events, (resolveAnew receiver key force e).2.journal = e.journal ++ events ∧
      Attempt e key force (resolveAnew receiver key force e).2 events := by
  obtain ⟨e₁, he, hrun⟩ := find_eq key force (isStatic receiver) e
  rw [resolveAnew_snd, hrun]
  cases hc : e.candidate (isStatic receiver) key with
  | none => exact ⟨[], by rw [List.append_nil]; exact he.journal, .nothing he.slots⟩
  | some c => exact settle_records hc he

/-- What is put into the cache changes neither the journal nor the slots. -/
theorem resolveAndCache_snd (receiver : Value) (key : PropertyKey) (force : Bool) (e : Engine) :
    (resolveAndCache receiver key force e).2.journal =
        (resolveAnew receiver key force e).2.journal ∧
      (resolveAndCache receiver key force e).2.registry.slots =
        (resolveAnew receiver key force e).2.registry.slots := by
  rw [resolveAndCache, Act.bind_apply]
  rcases resolveAnew receiver key force e with ⟨f | x, e'⟩
  · exact ⟨rfl, rfl⟩
  · exact ⟨rfl, rfl⟩

/-- A lookup that is answered from the cache records itself and log lines. -/
theorem resolve_of_valid_journal (receiver : Value) {x : Resolved}
    (hkey : receiver.typeName = key.typeName) (hx : e.registry.cache.find? key = some x)
    (hv : x.isValid e.platform force = true) :
    ∃ notes : List Note, (resolve receiver key.namespaceName key.name force e).2.journal =
      e.journal ++ .lookedUp key force :: notes.map .noted := by
  have hc : cached? key force (e.record (.lookedUp key force)) = _ := cached?_of_valid hx hv
  have hkey' : (⟨receiver.typeName, key.namespaceName, key.name⟩ : PropertyKey) = key := by
    rw [hkey]
  rw [resolve_eq, hkey', resolveFrom, Act.bind_of_ok hc]
  obtain ⟨notes, hn⟩ := noteResolving_eq (.cacheHit key)
    { e.record (.lookedUp key force) with
      registry := { e.registry with cache := (e.registry.cache.get key).2 } }
  refine ⟨notes, (congrArg Engine.journal hn).trans ?_⟩
  rw [Engine.record, List.append_assoc, List.singleton_append]

/-- **A lookup records itself, log lines, and what it asks the host for.** -/
theorem resolve_records (receiver : Value) (key : PropertyKey)
    (hkey : receiver.typeName = key.typeName) (force : Bool) (e : Engine) :
    ∃ (notes : List Note) (events : List Event),
      (resolve receiver key.namespaceName key.name force e).2.journal =
        e.journal ++ .lookedUp key force :: (notes.map .noted ++ events) ∧
      Attempt e key force (resolve receiver key.namespaceName key.name force e).2 events := by
  by_cases hhit : ∃ x, e.registry.cache.find? key = some x ∧ x.isValid e.platform force = true
  · obtain ⟨x, hx, hv⟩ := hhit
    obtain ⟨e', hrun, hs⟩ := resolve_of_valid receiver hkey hx hv
    obtain ⟨notes, hj⟩ := resolve_of_valid_journal receiver hkey hx hv
    rw [hrun] at hj ⊢
    exact ⟨notes, [], by rw [hj, List.append_nil], .nothing hs.slots⟩
  · have hmiss : ∀ x, e.registry.cache.find? key = some x → x.isValid e.platform force = false :=
      fun x hx => Bool.eq_false_iff.2 fun hv => hhit ⟨x, hx, hv⟩
    obtain ⟨notes, hrun⟩ := resolve_of_invalid hkey hmiss
    obtain ⟨events, hj, hattempt⟩ := resolveAnew_records receiver key force
      (e.dropping key (e.journal ++ .lookedUp key force :: notes.map .noted))
    obtain ⟨hjournal, hslots⟩ := resolveAndCache_snd receiver key force
      (e.dropping key (e.journal ++ .lookedUp key force :: notes.map .noted))
    rw [hrun]
    refine ⟨notes, events, ?_, hattempt.congr rfl rfl hslots⟩
    rw [hjournal, hj, dropping, List.append_assoc, List.cons_append]

/-! ## Asking at most once -/

/-- What an attempt asks for. -/
theorem requests_object {t className : String} {i : ℕ} {made : List Event} (notes : List Note)
    (hmade : made = [] ∨ made = [.created className]) :
    requests (.requested t i :: (made ++ notes.map .noted)) = [(t, i)] := by
  rcases hmade with rfl | rfl <;> simp [requests, Event.request?]

/-- Since a journal, the host has been asked for each registration at most once, and the slots of
those that it has been asked for are spent. -/
structure Sparing (events : List Event) (e : Engine) : Prop where
  journal : ∃ recorded, e.journal = events ++ recorded ∧ (requests recorded).Nodup ∧
    ∀ t i, (t, i) ∈ requests recorded → e.registry.Spent t i

/-- It has been asked for nothing so far. -/
theorem sparing_refl (e : Engine) : Sparing e.journal e :=
  ⟨[], (List.append_nil _).symm, List.nodup_nil, fun _ _ h => nomatch h⟩

/-- What asks for nothing and leaves the slots alone is sparing. -/
theorem Sparing.extend {more : List Event} (he : Sparing events e)
    (hj : e'.journal = e.journal ++ more) (hmore : requests more = [])
    (hslots : e'.registry = e.registry) : Sparing events e' := by
  obtain ⟨recorded, hrecorded, hnodup, hspent⟩ := he.journal
  have hsame : requests (recorded ++ more) = requests recorded := by
    rw [requests_append, hmore, List.append_nil]
  refine ⟨recorded ++ more, by rw [hj, hrecorded, List.append_assoc], ?_, fun t i hi => ?_⟩
  · rw [hsame]
    exact hnodup
  · rw [hsame] at hi
    rw [hslots]
    exact hspent t i hi

/-- **Lookups are sparing**: what they ask for has not been asked for, as its slot was dormant. -/
theorem Sparing.resolve (receiver : Value) (namespaceName property : String) (force : Bool) :
    Act.Keeps (Sparing events) (resolve receiver namespaceName property force) := by
  intro e he
  obtain ⟨recorded, hrecorded, hnodup, hspent⟩ := he.journal
  obtain ⟨notes, asked, hj, hattempt⟩ :=
    resolve_records receiver ⟨_, namespaceName, property⟩ rfl force e
  have hrequests : ∀ lookup : Event, lookup.request? = none →
      requests (recorded ++ lookup :: (notes.map .noted ++ asked)) =
        requests recorded ++ requests asked := by
    intro lookup hlookup
    rw [requests_append, ← List.singleton_append, requests_append, requests_append, requests_notes]
    simp [requests, hlookup]
  refine ⟨_, by rw [hj, hrecorded, List.append_assoc], ?_, fun t i hi => ?_⟩
  · rw [hrequests _ rfl]
    cases hattempt with
    | nothing slots => exact (List.append_nil _).symm ▸ hnodup
    | object holds _ dormant _ _ _ made_eq =>
      rw [requests_object _ made_eq, List.nodup_append]
      refine ⟨hnodup, List.nodup_singleton _, fun p hp q hq hpq => ?_⟩
      rw [hpq, List.mem_singleton.1 hq] at hp
      exact not_spent holds dormant (hspent _ _ hp)
  · rw [hrequests _ rfl] at hi
    cases hattempt with
    | nothing slots =>
      rw [show requests [] = [] from rfl, List.append_nil] at hi
      exact (hspent t i hi).congr slots
    | object _ _ _ _ slots spent made_eq =>
      rw [requests_object _ made_eq, List.mem_append, List.mem_singleton] at hi
      rcases hi with hi | hi
      · exact (hspent t i hi).fill slots spent
      · obtain ⟨rfl, rfl⟩ := Prod.mk.inj hi
        exact spent_fill_self slots spent

/-- So is the evaluation of expressions. -/
theorem steady_sparing (events : List Event) : Steady (Sparing events) where
  record e ev hev he := by
    have hj : (e.record ev).journal = e.journal ++ [ev] := rfl
    refine he.extend hj ?_ rfl
    rw [requests, List.filterMap_cons, ev.request?_of_isRemark hev]
    rfl
  resolve := Sparing.resolve
  definition := definition_keeps fun _ _ notes he => he.extend rfl (requests_notes notes) rfl

/-- **And every deed that leaves the registrations as they are.** -/
theorem Deed.perform_sparing {deed : Deed} (hdeed : deed.isRegistryChange = false)
    (he : Sparing events e) : Sparing events (deed.perform e) := by
  cases deed with
  | host platform definitions => exact ⟨he.journal⟩
  | move m =>
    cases m with
    | lookUp receiver namespaceName property force => exact Sparing.resolve _ _ _ _ e he
    | evaluate x ctx => exact evaluate_keeps (steady_sparing events) x ctx e he
    | activate contributor => exact ⟨he.journal⟩
    | deactivate contributor => exact ⟨he.journal⟩
    | _ => cases hdeed

/-- **As long as the registrations stay, the host is asked for the object of each of them at most
once.** -/
theorem requests_nodup (e : Engine) {during : List Deed}
    (hduring : ∀ deed ∈ during, deed.isRegistryChange = false) :
    ∃ recorded, (after during e).journal = e.journal ++ recorded ∧ (requests recorded).Nodup := by
  have hsparing : ∀ e', Sparing e.journal e' → Sparing e.journal (after during e') := by
    induction during with
    | nil => exact fun _ he => he
    | cons deed during ih =>
      obtain ⟨hdeed, hduring⟩ := List.forall_mem_cons.1 hduring
      exact fun e' he => ih hduring _ (deed.perform_sparing hdeed he)
  obtain ⟨recorded, hrecorded, hnodup, -⟩ := (hsparing e (sparing_refl e)).journal
  exact ⟨recorded, hrecorded, hnodup⟩

end Engine

end Enablement

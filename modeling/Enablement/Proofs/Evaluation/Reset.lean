import Enablement.Proofs.Evaluation.Blind
import Enablement.Proofs.Evaluation.Sticky
import Enablement.Proofs.Registry.Survivors
/-!
# Evaluation — a change of the registrations starts anew

What can be seen of an engine in use are its answers, which of them come from the cache, and the
events that it records (`Engine.observe`). After a change of the registrations nothing that happened
before can be seen in any of this, but for the testers that survive: the engine is then a new one on
the same host, in which these have been registered in the order in which they were added
(`registryChange_resets`).
-/

namespace Enablement

namespace Engine

open Registry

variable {e e₀ : Engine}

/-! ## What can be seen -/

/-- Whether a lookup is answered from the cache. -/
def hits (key : PropertyKey) (force : Bool) (e : Engine) : Bool :=
  match (cached? key force e).1 with
  | .ok (some _) => true
  | _ => false

/-- What a deed answers with. -/
inductive Answer where
  /-- A lookup ends with a tester or a fault, and is answered from the cache or not. -/
  | resolved (outcome : Except Fault Resolved) (cached : Bool)
  | evaluated (outcome : Except Fault Truth)
  /-- So many testers are removed. -/
  | removed (count : ℕ)
  | done

/-- The answer of a deed. -/
def Deed.answer : Deed → Engine → Answer
  | .move (.lookUp receiver namespaceName property force), e =>
    .resolved (resolve receiver namespaceName property force e).1
      (hits ⟨receiver.typeName, namespaceName, property⟩ force e)
  | .move (.evaluate x ctx), e => .evaluated (evaluate x ctx e).1
  | .move (.removeContributor contributor), e => .removed (removeContributor contributor e).1
  | _, _ => .done

/-- The events that a deed adds to the journal. -/
def Deed.recorded (deed : Deed) (e : Engine) : List Event :=
  (deed.perform e).journal.drop e.journal.length

/-- What can be seen of a continuation: the answers of its deeds, and the events that they record.
-/
def observe : List Deed → Engine → List (Answer × List Event)
  | [], _ => []
  | deed :: next, e => (deed.answer e, deed.recorded e) :: observe next (deed.perform e)

/-! ## What has been recorded before cannot be seen -/

variable (earlier : List Event)

theorem Deed.perform_behind (deed : Deed) (e : Engine) :
    deed.perform (e.behind earlier) = (deed.perform e).behind earlier := by
  -- a change of the registrations is told of at the end of the journal
  have hnote : ∀ e' : Engine, (e'.behind earlier).note .registryChanged =
      (e'.note .registryChanged).behind earlier := fun e' => (aside_behind earlier).record e' _
  cases deed with
  | host platform definitions => rfl
  | move m =>
    cases m with
    | lookUp receiver namespaceName property force =>
      exact congrArg Prod.snd (resolve_behind earlier receiver namespaceName property force e)
    | evaluate x ctx => exact congrArg Prod.snd (evaluate_behind earlier x ctx e)
    | addTesters ds => exact hnote { e with registry := e.registry.add ds }
    | removeContributor contributor =>
      exact hnote { e with registry := e.registry.removeContributor contributor }
    | registryChanged => exact hnote { e with registry := e.registry.flush }
    | activate contributor => rfl
    | deactivate contributor => rfl

theorem hits_behind (key : PropertyKey) (force : Bool) (e : Engine) :
    hits key force (e.behind earlier) = hits key force e := by
  rw [hits, hits, (aside_behind earlier).unseeing_cached? key force e trivial]

theorem Deed.answer_behind (deed : Deed) (e : Engine) :
    deed.answer (e.behind earlier) = deed.answer e := by
  cases deed with
  | host platform definitions => rfl
  | move m =>
    cases m with
    | lookUp receiver namespaceName property force =>
      rw [Deed.answer, Deed.answer, resolve_behind, hits_behind]
    | evaluate x ctx => rw [Deed.answer, Deed.answer, evaluate_behind]
    | _ => rfl

theorem Deed.recorded_behind (deed : Deed) (e : Engine) :
    deed.recorded (e.behind earlier) = deed.recorded e := by
  rw [Deed.recorded, Deed.recorded, Deed.perform_behind]
  simp only [behind, List.length_append, List.drop_length_add_append]

/-- **What has been recorded before cannot be seen.** -/
theorem observe_behind (next : List Deed) (e : Engine) :
    observe next (e.behind earlier) = observe next e := by
  induction next generalizing e with
  | nil => rfl
  | cons deed next ih =>
    rw [observe, observe, Deed.answer_behind, Deed.recorded_behind, Deed.perform_behind, ih]

/-- Engines that differ in their journals only cannot be told apart. -/
theorem observe_congr {e e' : Engine} (h : { e with journal := [] } = { e' with journal := [] })
    (next : List Deed) : observe next e = observe next e' := by
  rw [e.eq_behind_journal, e'.eq_behind_journal, observe_behind, observe_behind, h]

/-! ## A new engine -/

variable {platform : Platform} {options : Options} {handlers : List Handler}

/-- Made of the same, engines have the same registry once it has been flushed. -/
theorem Stocked.registry_eq {e' : Engine} {ds : List Descriptor} {r r' : Registry}
    (he : Stocked options handlers ds e) (he' : Stocked options handlers ds e')
    (hr : e.registry = r.flush) (hr' : e'.registry = r'.flush) : e'.registry = e.registry := by
  have hregistered := he.lists.registered_eq he'.lists
  have hcapacity := he'.capacity.trans he.capacity.symm
  rw [hr, hr'] at hregistered hcapacity ⊢
  have hregistered : r'.registered = r.registered := hregistered
  have hcapacity : r'.cache.capacity = r.cache.capacity := hcapacity
  rw [flush, flush, Recency.clear, Recency.clear, hregistered, hcapacity]

/-- Valid options are valid again. -/
theorem validate_of_make (hmade : make platform options handlers = .ok e) :
    options.validate = .ok options := by
  rw [make, Options.validate] at hmade
  rw [Options.validate]
  split at hmade
  · cases hmade
  · rw [if_neg ‹_›]

/-- Once the registrations have changed, an engine is a new one with the survivors, but for its
definitions and its journal. -/
theorem perform_eq_new (hmade : make platform options handlers = .ok e₀) (history : List Deed)
    {m : Move} (hm : m.isRegistryChange = true) :
    ∃ new, make (m.perform (after history e₀)).platform options handlers = .ok new ∧
      { m.perform (after history e₀) with journal := [] } =
        { addTesters (survivors (history ++ [.move m])) new with
          definitions := (m.perform (after history e₀)).definitions, journal := [] } := by
  let e := m.perform (after history e₀)
  let kept := survivors (history ++ [.move m])
  let new : Engine := { platform := e.platform, options, handlers }
  have hnew : make e.platform options handlers = .ok new := by
    rw [make, validate_of_make hmade]
    rfl
  -- the two are made of the same, and the registries of both have been flushed
  have he : Stocked options handlers kept e := by
    have h := stocked_after hmade (history ++ [.move m])
    rwa [after_append] at h
  have hadded : Stocked options handlers kept (addTesters kept new) :=
    (stocked_make hnew).perform (.move (.addTesters kept))
  have htyped := (reachable_after (.made hmade) history).sound.typed
  obtain ⟨r, -, hr⟩ := Move.registry_of_isRegistryChange hm htyped
  have hregistry : e.registry = (addTesters kept new).registry := hadded.registry_eq he rfl hr
  refine ⟨new, hnew, ?_⟩
  show Engine.mk e.platform e.options e.handlers e.registry e.definitions [] =
    Engine.mk e.platform options handlers (addTesters kept new).registry e.definitions []
  rw [he.options, he.handlers, hregistry]

/-- **A change of the registrations starts anew.** After any history of an engine that ends with
one, whatever happens next can be seen to happen as it would to a new engine on the same host in
which the survivors are registered: the same answers, from the cache or not, and the same events.
Removing a contributor answers with the number of its surviving testers, and from then on no lookup
answers with a tester of it, until one is added again. -/
theorem registryChange_resets (hmade : make platform options handlers = .ok e₀)
    (history : List Deed) :
    (∀ m : Move, m.isRegistryChange = true →
      ∃ new, make (m.perform (after history e₀)).platform options handlers = .ok new ∧
        ∀ next, observe next (m.perform (after history e₀)) =
          observe next { addTesters (survivors (history ++ [.move m])) new with
            definitions := (m.perform (after history e₀)).definitions }) ∧
    ∀ contributor,
      (removeContributor contributor (after history e₀)).1 =
        (survivors history).countP (·.contributor == contributor) ∧
      ∀ later : List Deed,
        (∀ deed ∈ later, ∀ d ∈ deed.added, d.contributor ≠ contributor) →
        ∀ receiver namespaceName property force x,
          (resolve receiver namespaceName property force
            (after (.move (.removeContributor contributor) :: later) (after history e₀))).1 =
              .ok x →
          x.handle.descriptor.contributor ≠ contributor := by
  refine ⟨fun m hm => ?_, fun contributor => ⟨?_, ?_⟩⟩
  · obtain ⟨new, hnew, heq⟩ := perform_eq_new hmade history hm
    exact ⟨new, hnew, observe_congr heq⟩
  · exact (stocked_after hmade history).lists.countOf contributor
  · intro later hlater receiver namespaceName property force x hx
    rw [← after_append] at hx
    exact contributor_ne_of_mem_survivors (resolve_mem_survivors hmade hx) hlater

/-- A slot is filled and another one is cleared before a contributor is removed and comes back. -/
def comesBack : List Deed :=
  [.move (.addTesters [twoProperties, ofObjects, ofUnknownClass]),
    .move (.lookUp (.string "x") "ns" "a" true), .move (.lookUp (.string "x") "ns" "q" true),
    .move (.removeContributor "c"), .move (.addTesters [twoProperties])]

/-- A flush leaves an engine with the cleared slot as it was and the one tester that has come back.
-/
theorem comesBack_resets :
    (∃ new, make (registryChanged (after comesBack stringEngine)).platform {} [] = .ok new ∧
      ∀ next, observe next (registryChanged (after comesBack stringEngine)) =
        observe next { addTesters [ofUnknownClass, twoProperties] new with
          definitions := (registryChanged (after comesBack stringEngine)).definitions }) ∧
    (removeContributor "c" (after comesBack stringEngine)).1 = 1 ∧
    ∃ x, (resolve (.string "x") "ns" "q" false
        (after [.move (.removeContributor "c"), .move (.activate "c")]
          (after comesBack stringEngine))).1 = .ok x ∧
      x.handle.descriptor.contributor ≠ "c" := by
  obtain ⟨hchange, hremove⟩ := registryChange_resets make_stringEngine comesBack
  obtain ⟨hcount, hlater⟩ := hremove "c"
  have hadds : ∀ deed ∈ [Deed.move (.activate "c")], ∀ d ∈ deed.added, d.contributor ≠ "c" := by
    intro deed hdeed d hd
    rw [List.mem_singleton.1 hdeed] at hd
    cases hd
  exact ⟨hchange .registryChanged rfl, hcount, _, rfl,
    hlater _ hadds (.string "x") "ns" "q" false _ rfl⟩

end Engine

end Enablement

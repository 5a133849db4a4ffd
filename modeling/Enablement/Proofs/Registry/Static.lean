import Enablement.Proofs.Registry.Run
/-!
# Registry — receivers that are types

A receiver that is itself a type is searched for among the type's own testers. But it shares its key
with the values of the type, and for these a lookup may have cached a tester that they inherit. Such
an entry is the only way for a type to answer with a tester that was not contributed to it.
-/

namespace Enablement

/-- What is cached for a type, and still counts, was contributed to another type. -/
def Engine.Inherited (e : Engine) (key : PropertyKey) (force : Bool) : Prop :=
  ∃ r ∈ e.registry.cache.find? key, r.isValid e.platform force = true ∧
    r.handle.descriptor.typeName ≠ key.typeName

instance (e : Engine) (key : PropertyKey) (force : Bool) : Decidable (e.Inherited key force) :=
  inferInstanceAs (Decidable (∃ r ∈ _, _))

namespace Engine

open Registry

/-- An answer for a type as it should be: a tester that was contributed to the type itself, and the
fault that says so if there is none for the property. -/
structure OwnAnswer (e : Engine) (key : PropertyKey) (answer : Except Fault Resolved) : Prop where
  own : ∀ r, answer = .ok r → r.handle.descriptor ∈ e.registry.registrations key.typeName
  unknown : (∀ d ∈ e.registry.registrations key.typeName,
      d.handles key.namespaceName key.name = false) →
    answer = .error (.unknownProperty key.namespaceName key.name key.typeName)

variable {e : Engine} {key : PropertyKey} {force : Bool}

/-- A search for a type comes to a tester of the type. -/
theorem Consistent.static_candidate (he : e.Consistent) {c : Candidate}
    (hc : e.candidate true key = some c) :
    c.handle.descriptor ∈ e.registry.registrations key.typeName ∧
      c.handle.handles key.namespaceName key.name = true := by
  obtain ⟨ht, -, hhandles⟩ := candidate_eq_some hc
  obtain ⟨hmem, -⟩ := he.candidate hc
  rw [List.mem_singleton.1 ht] at hmem
  exact ⟨hmem, hhandles⟩

/-- **A search answers for a type with its own testers.** -/
theorem Consistent.directAnswer_own (he : e.Consistent) (key : PropertyKey) (force : Bool) :
    e.OwnAnswer key (e.directAnswer true key force) := by
  rw [directAnswer]
  cases hc : e.candidate true key with
  | none =>
    refine ⟨fun r hr => ?_, fun _ => rfl⟩
    cases hr
  | some c =>
    obtain ⟨hmem, hhandles⟩ := he.static_candidate hc
    refine ⟨fun r hr => ?_, fun hnone => ?_⟩
    · dsimp only at hr
      split at hr
      · cases hm : e.platform.make c.handle with
        | error f =>
          rw [hm] at hr
          cases hr
        | ok live =>
          rw [hm] at hr
          rw [← Except.ok.inj hr, (Platform.make_eq_ok hm).1]
          exact hmem
      · rw [← Except.ok.inj hr]
        exact hmem
    · have hnot := hnone _ hmem
      rw [Handle.handles] at hhandles
      rw [hnot] at hhandles
      cases hhandles

/-- So does a lookup, unless what is cached was inherited. -/
theorem Consistent.resolve_own (he : e.Consistent) (key : PropertyKey) (force : Bool)
    (hcached : ¬ e.Inherited key force) :
    e.OwnAnswer key
      (resolve (.type key.typeName) key.namespaceName key.name force e).1 := by
  have h := resolve_resolves (.type key.typeName) key rfl force e
  generalize (resolve (.type key.typeName) key.namespaceName key.name force e).1 = answer at h ⊢
  generalize (resolve (.type key.typeName) key.namespaceName key.name force e).2 = e' at h
  cases h with
  | @cached r _ hit valid _ =>
    -- what is cached is registered for its own type, which is the one asked about
    have hentered := he.cached key r hit
    have htype : r.handle.descriptor.typeName = key.typeName := by
      by_contra hne
      exact hcached ⟨r, hit, valid, hne⟩
    have hmem := hentered.registered
    rw [htype] at hmem
    refine ⟨fun x hx => ?_, fun hnone => ?_⟩
    · rw [← Except.ok.inj hx]
      exact hmem
    · have hhandles := hentered.handles
      rw [Handle.handles, hnone _ hmem] at hhandles
      cases hhandles
  | found journal _ hdirect =>
    rw [hdirect.answer, directAnswer_dropping]
    exact he.directAnswer_own key force
  | failed journal _ hdirect =>
    rw [hdirect.answer, directAnswer_dropping]
    exact he.directAnswer_own key force

/-- And what was inherited is what it answers with. -/
theorem Consistent.not_own_of_inherited (he : e.Consistent) (h : e.Inherited key force) :
    ¬ e.OwnAnswer key (resolve (.type key.typeName) key.namespaceName key.name force e).1 := by
  obtain ⟨r, hit, valid, hne⟩ := h
  obtain ⟨e', hrun, -⟩ := resolve_of_valid (.type key.typeName) rfl hit valid
  intro hown
  exact hne (he.typed _ _ (hown.own r (congrArg Prod.fst hrun)))

/-- **A type answers with its own testers exactly where nothing inherited is cached for it.** After
any run, a lookup on a type either finds a tester that was contributed to the type itself, or ends
in a fault, which says that the property is unknown if none of the type's testers answers for it;
unless the cache holds, under the key that the type shares with its values, a tester that these
inherit. -/
theorem run_resolve_type_own_iff {platform : Platform} {options : Options}
    {handlers : List Handler} {e₀ : Engine} (hmade : make platform options handlers = .ok e₀)
    (ms : List Move) (t namespaceName property : String) (force : Bool) :
    ((∀ r, (resolve (.type t) namespaceName property force (run ms e₀)).1 = .ok r →
        r.handle.descriptor ∈ (run ms e₀).registry.registrations t ∧
          r.handle.descriptor.typeName = t) ∧
      ((∀ d ∈ (run ms e₀).registry.registrations t, d.handles namespaceName property = false) →
        (resolve (.type t) namespaceName property force (run ms e₀)).1 =
          .error (.unknownProperty namespaceName property t))) ↔
      ¬ (run ms e₀).Inherited ⟨t, namespaceName, property⟩ force := by
  have he := run_consistent ms (make_consistent hmade).1
  constructor
  · rintro ⟨hown, hnone⟩ hinherited
    exact he.not_own_of_inherited hinherited ⟨fun r hr => (hown r hr).1, hnone⟩
  · intro hcached
    have hown := he.resolve_own _ _ hcached
    exact ⟨fun r hr => ⟨hown.own r hr, he.typed _ _ (hown.own r hr)⟩, hown.unknown⟩

/-- A declaration that answers for a property of objects, by a contributor that is not active. -/
def ofObjects : Descriptor := .ofFields "t" "Object" "ns" "p" "TrueTester" "c"

/-- As long as no string has been looked at, the type of strings does not have the property. -/
theorem resolve_type_unknown :
    (resolve (.type "string") "ns" "p" false (run [.addTesters [ofObjects]] stringEngine)).1 =
      .error (.unknownProperty "ns" "p" "string") :=
  ((run_resolve_type_own_iff make_stringEngine [.addTesters [ofObjects]] "string" "ns" "p" false).2
    (by decide)).2 (by decide)

/-- Once one has been, it answers with the tester that strings inherit. -/
theorem resolve_type_inherited :
    make stringHost {} [] = .ok stringEngine ∧
      (run [.addTesters [ofObjects], .lookUp (.string "x") "ns" "p" false]
        stringEngine).registry.registrations "string" = [] ∧
      (resolve (.type "string") "ns" "p" false
        (run [.addTesters [ofObjects], .lookUp (.string "x") "ns" "p" false] stringEngine)).1.map
          (·.handle.descriptor) = .ok ofObjects ∧
      ofObjects.typeName = "Object" :=
  ⟨make_stringEngine, rfl, rfl, rfl⟩

end Engine

end Enablement

import Enablement.Proofs.Registry.Cache
import Enablement.Proofs.Registry.Reachable
/-!
# Registry — answers that stay

Once a lookup has answered with an instantiated tester, later lookups under the same key answer with
the same one, as long as the registrations stay. The cache may drop the tester, since its
contributor may be deactivated or other entries may need the room; then the search ends with it
again, by the supertypes that are remembered from the first time. Only a receiver that is a type may
be refused what its values have found.
-/

namespace Enablement

namespace Registry

variable {r : Registry} {key : PropertyKey} {h : Handle}

/-- A tester that lookups under a key answer with: the search ends with it, and nothing else is
cached under the key. -/
structure Pinned (r : Registry) (key : PropertyKey) (h : Handle) : Prop where
  live : h.isInstantiated = true
  found : ∃ c, r.SearchEnds key.namespaceName key.name key.typeName (some c) ∧ c.handle = h
  cached : ∀ x, r.cache.find? key = some x → x.handle = h

end Registry

namespace Engine

open Registry

variable {e e' : Engine} {receiver : Value} {key key' : PropertyKey} {h : Handle} {force : Bool}

/-- An engine with a sound registry in which searches do not go in circles. -/
structure Orderly (e : Engine) : Prop where
  sound : e.registry.Sound
  acyclic : NoCycle (e.registry.Walks e.platform)

theorem Orderly.leads (he : e.Orderly) : NoCycle e.registry.Leads :=
  he.acyclic.mono fun _ _ h => h.walks e.platform

/-- In a settled engine searches go in circles only if the hierarchy does. -/
theorem Settled.orderly (he : e.Settled) (hp : e.platform.Acyclic) : e.Orderly := by
  refine ⟨he.reachable.sound, hp.mono fun t super hwalks => ?_⟩
  rw [Walks, he.consistent.superTypes] at hwalks
  exact hwalks

/-! ## Pinned testers are answered with -/

/-- A search comes to the pinned tester. -/
theorem Orderly.candidate_pinned (he : e.Orderly) (hp : e.registry.Pinned key h) :
    ∃ c, e.candidate false key = some c ∧ c.handle = h := by
  obtain ⟨c, hends, hh⟩ := hp.found
  obtain ⟨rank, hdepth, hlt⟩ := exists_rank_lt_searchDepth he.acyclic fun _ _ hwalks => hwalks
  have hcandidate := hends.candidate_eq (fun t super => hlt t super) (hdepth key.typeName)
  exact ⟨c, hcandidate, hh⟩

/-- What a search comes to under the key is the pinned tester, also if it looks at one type only. -/
theorem Orderly.candidate_handle (he : e.Orderly) (hp : e.registry.Pinned key h) {static : Bool}
    {c : Candidate} (hc : e.candidate static key = some c) : c.handle = h := by
  cases static with
  | true =>
    obtain ⟨c', hends, hh⟩ := hp.found
    rw [Engine.candidate, searched, if_pos rfl, candidate_cons, Registry.candidate,
      List.findSome?_nil, Option.or_none] at hc
    rw [Ends.eq_of_own hends hc, hh]
  | false =>
    obtain ⟨c', hc', hh⟩ := he.candidate_pinned hp
    rw [hc'] at hc
    rw [← Option.some.inj hc, hh]

/-- A search answers with it, or does not come to any. -/
theorem Orderly.directAnswer_pinned (he : e.Orderly) (hp : e.registry.Pinned key h)
    (static force : Bool) :
    e.directAnswer static key force = .ok ⟨key, h⟩ ∨
      ∃ f, e.directAnswer static key force = .error f := by
  cases hc : e.candidate static key with
  | none =>
    rw [directAnswer, hc]
    exact .inr ⟨_, rfl⟩
  | some c =>
    have hh := he.candidate_handle hp hc
    have hlive : c.handle.isInstantiated = true := by
      rw [hh]
      exact hp.live
    rw [directAnswer_of_live hc hlive, hh]
    exact .inl rfl

/-- A lookup answers with the pinned tester, or as a search does. -/
theorem Orderly.resolve_fst_pinned (he : e.Orderly) (hp : e.registry.Pinned key h)
    (hkey : receiver.typeName = key.typeName) (force : Bool) :
    (resolve receiver key.namespaceName key.name force e).1 = .ok ⟨key, h⟩ ∨
      (resolve receiver key.namespaceName key.name force e).1 =
        e.directAnswer (isStatic receiver) key force := by
  by_cases hhit : ∃ x, e.registry.cache.find? key = some x ∧ x.isValid e.platform force = true
  · obtain ⟨x, hx, hv⟩ := hhit
    obtain ⟨e', hrun, -⟩ := resolve_of_valid receiver hkey hx hv
    have hkeyed := (he.sound.entries key x hx).keyed
    have hh := hp.cached x hx
    obtain ⟨k, h'⟩ := x
    cases hkeyed
    cases hh
    rw [hrun]
    exact .inl rfl
  · have hmiss : ∀ x, e.registry.cache.find? key = some x → x.isValid e.platform force = false :=
      fun x hx => Bool.eq_false_iff.2 fun hv => hhit ⟨x, hx, hv⟩
    rw [resolve_fst_of_invalid hkey hmiss, resolveAnew_fst]
    exact .inr rfl

/-- **A lookup answers with the pinned tester**, or is refused. -/
theorem Orderly.resolve_pinned (he : e.Orderly) (hp : e.registry.Pinned key h)
    (hkey : receiver.typeName = key.typeName) (force : Bool) :
    (resolve receiver key.namespaceName key.name force e).1 = .ok ⟨key, h⟩ ∨
      ∃ f, (resolve receiver key.namespaceName key.name force e).1 = .error f := by
  rcases he.resolve_fst_pinned hp hkey force with hpinned | hsearch
  · exact .inl hpinned
  · rw [hsearch]
    exact he.directAnswer_pinned hp _ force

/-- **On a receiver that is not a type it is not refused.** -/
theorem Orderly.resolve_pinned_value (he : e.Orderly) (hp : e.registry.Pinned key h)
    (hkey : receiver.typeName = key.typeName) (hvalue : isStatic receiver = false) (force : Bool) :
    (resolve receiver key.namespaceName key.name force e).1 = .ok ⟨key, h⟩ := by
  rcases he.resolve_fst_pinned hp hkey force with hpinned | hsearch
  · exact hpinned
  · obtain ⟨c, hc, hh⟩ := he.candidate_pinned hp
    have hlive : c.handle.isInstantiated = true := by
      rw [hh]
      exact hp.live
    rw [hsearch, hvalue, directAnswer_of_live hc hlive, hh]

/-! ## Answers are pinned -/

/-- **An instantiated tester is pinned by the lookup that answers with it.** -/
theorem Answers.pinned {x : Resolved} (ha : Answers e key (.ok x) e') (he' : e'.Orderly)
    (hlive : x.handle.isInstantiated = true) : e'.registry.Pinned key x.handle := by
  refine ⟨hlive, (ha.entry x rfl).found he'.leads hlive, fun y hy => ?_⟩
  rcases ha.cached key y hy with ⟨-, hx⟩ | ⟨hne, -⟩
  · rw [Except.ok.inj hx]
  · exact absurd rfl hne

/-- What is pinned stays pinned. Under its own key a lookup has answered with it, or has failed. -/
theorem Answers.keeps_pinned {answer : Except Fault Resolved} (ha : Answers e key' answer e')
    (hp : e.registry.Pinned key h)
    (hsame : key = key' → answer = .ok ⟨key', h⟩ ∨ ∃ f, answer = .error f) :
    e'.registry.Pinned key h := by
  refine ⟨hp.live, ?_, fun x hx => ?_⟩
  · obtain ⟨c, hends, hh⟩ := hp.found
    refine ⟨c, hends.proceeds ?_ ha.proceeds, hh⟩
    rw [hh]
    exact hp.live
  · rcases ha.cached key x hx with ⟨hk, hx⟩ | ⟨-, hx⟩
    · rcases hsame hk with hanswer | ⟨f, hanswer⟩
      · rw [hanswer] at hx
        rw [← Except.ok.inj hx]
      · rw [hanswer] at hx
        cases hx
    · exact hp.cached x hx

end Engine

end Enablement

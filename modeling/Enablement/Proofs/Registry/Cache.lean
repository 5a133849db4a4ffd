import Enablement.Proofs.Registry.Run
/-!
# Registry — what the cache shows

A lookup that finds nothing valid in the cache answers as a direct search does, and so does one that
finds an instantiated tester there. A dormant tester in the cache is judged by its contributor
alone, and the slots may have moved on: another lookup may have had the same declaration
instantiated, or its slot cleared. Then the cache answers with what used to be found (`Overtaken`),
and that is the only case in which the cache shows.
-/

namespace Enablement

/-- What a lookup tells about a tester: its declaration, and whether it is instantiated. -/
def Handle.status (h : Handle) : Descriptor × Bool := (h.descriptor, h.isInstantiated)

/-- Dormant testers of the same declaration are the same. -/
theorem Handle.eq_of_status {h h' : Handle} (hs : h'.status = h.status)
    (hd : h.isInstantiated = false) : h' = h := by
  obtain ⟨d, o⟩ := h
  obtain ⟨d', o'⟩ := h'
  obtain ⟨rfl, hlive⟩ := Prod.mk.inj hs
  cases o with
  | some t => cases hd
  | none =>
    cases o' with
    | some t' => cases hlive
    | none => rfl

/-- What is valid in the cache is instantiated, or dormant with an inactive contributor in a lookup
that is not forced. -/
theorem Resolved.isValid_eq_true {r : Resolved} {p : Platform} {force : Bool} :
    r.isValid p force = true ↔
      (r.handle.isInstantiated = true ∧ r.handle.isActive p = true) ∨
      (force = false ∧ r.handle.isInstantiated = false ∧ r.handle.isActive p = false) := by
  rw [Resolved.isValid]
  cases force <;> cases r.handle.isInstantiated <;> cases r.handle.isActive p <;> decide

/-- What is cached for a key is dormant and still counts, since its contributor is inactive and the
lookup is not forced, but a search would no longer find it. -/
def Engine.Overtaken (e : Engine) (key : PropertyKey) (force : Bool) : Prop :=
  force = false ∧ ∃ r ∈ e.registry.cache.find? key, r.handle.isInstantiated = false ∧
    r.handle.isActive e.platform = false ∧
    (e.candidate false key).map (·.handle.status) ≠ some r.handle.status

instance (e : Engine) (key : PropertyKey) (force : Bool) : Decidable (e.Overtaken key force) :=
  inferInstanceAs (Decidable (_ ∧ _))

namespace Engine

open Registry

variable {e : Engine} {receiver : Value} {key : PropertyKey} {force : Bool}

/-- A direct search answers as the candidate says. -/
theorem resolveAnew_fst (receiver : Value) (key : PropertyKey) (force : Bool) (e : Engine) :
    (resolveAnew receiver key force e).1 = e.directAnswer (isStatic receiver) key force :=
  (resolveAnew_direct receiver key force e).answer

/-- A search answers with an instantiated candidate as it is. -/
theorem directAnswer_of_live {static : Bool} {c : Candidate} (hc : e.candidate static key = some c)
    (hlive : c.handle.isInstantiated = true) :
    e.directAnswer static key force = .ok ⟨key, c.handle⟩ := by
  rw [directAnswer, hc]
  refine if_neg ?_
  rintro ⟨hd, -⟩
  rw [hlive] at hd
  cases hd

/-- And with any candidate whose contributor is inactive, unless the lookup is forced. -/
theorem directAnswer_of_inactive {static : Bool} {c : Candidate}
    (hc : e.candidate static key = some c) (hactive : c.handle.isActive e.platform = false) :
    e.directAnswer static key false = .ok ⟨key, c.handle⟩ := by
  rw [directAnswer, hc]
  refine if_neg ?_
  rintro ⟨-, hforce | hactive'⟩
  · cases hforce
  · rw [hactive] at hactive'
    cases hactive'

/-- **Without a valid entry the cache does not show.** -/
theorem resolve_fst_of_invalid (hkey : receiver.typeName = key.typeName)
    (hr : ∀ r, e.registry.cache.find? key = some r → r.isValid e.platform force = false) :
    (resolve receiver key.namespaceName key.name force e).1 =
      (resolveAnew receiver key force e).1 := by
  rw [resolveAnew_fst]
  have h := resolve_resolves receiver key hkey force e
  generalize (resolve receiver key.namespaceName key.name force e).1 = r at h ⊢
  generalize (resolve receiver key.namespaceName key.name force e).2 = e' at h
  cases h with
  | cached hit valid _ =>
    rw [hr _ hit] at valid
    cases valid
  | found journal _ hdirect => rw [hdirect.answer, directAnswer_dropping]
  | failed journal _ hdirect => rw [hdirect.answer, directAnswer_dropping]

/-- **An instantiated tester in the cache does not show**, since it is the candidate. -/
theorem Consistent.resolve_fst_of_live (he : e.Consistent) (hp : e.platform.Acyclic)
    (hkey : receiver.typeName = key.typeName) (hstatic : isStatic receiver = false) {r : Resolved}
    (hr : e.registry.cache.find? key = some r) (hv : r.isValid e.platform force = true)
    (hlive : r.handle.isInstantiated = true) :
    (resolve receiver key.namespaceName key.name force e).1 =
      (resolveAnew receiver key force e).1 := by
  obtain ⟨e', hrun, -⟩ := resolve_of_valid receiver hkey hr hv
  have hentered := he.cached key r hr
  obtain ⟨c, hc, hh⟩ := hentered.live hp hlive
  rw [← he.candidate_eq hp] at hc
  rw [hrun, resolveAnew_fst, hstatic, directAnswer_of_live hc (by rw [hh]; exact hlive), hh,
    ← hentered.keyed]

/-- **Nor does a dormant one that a search still finds.** -/
theorem Consistent.resolve_fst_of_found (he : e.Consistent)
    (hkey : receiver.typeName = key.typeName) (hstatic : isStatic receiver = false) {r : Resolved}
    (hr : e.registry.cache.find? key = some r) (hd : r.handle.isInstantiated = false)
    (hactive : r.handle.isActive e.platform = false)
    (hfound : (e.candidate false key).map (·.handle.status) = some r.handle.status) :
    (resolve receiver key.namespaceName key.name false e).1 =
      (resolveAnew receiver key false e).1 := by
  have hv : r.isValid e.platform false = true :=
    Resolved.isValid_eq_true.2 (.inr ⟨rfl, hd, hactive⟩)
  obtain ⟨e', hrun, -⟩ := resolve_of_valid receiver hkey hr hv
  obtain ⟨c, hc, hs⟩ := Option.map_eq_some_iff.1 hfound
  have hh := Handle.eq_of_status hs hd
  rw [hrun, resolveAnew_fst, hstatic, directAnswer_of_inactive hc (by rw [hh]; exact hactive), hh,
    ← (he.cached key r hr).keyed]

/-- **An overtaken tester shows**: a search finds another one, or the same in another state, or
none. -/
theorem Overtaken.resolve_status_ne (h : e.Overtaken key force)
    (hkey : receiver.typeName = key.typeName) (hstatic : isStatic receiver = false) :
    (resolve receiver key.namespaceName key.name force e).1.map (·.handle.status) ≠
      (resolveAnew receiver key force e).1.map (·.handle.status) := by
  obtain ⟨rfl, r, hr, hd, hactive, hne⟩ := h
  have hv : r.isValid e.platform false = true :=
    Resolved.isValid_eq_true.2 (.inr ⟨rfl, hd, hactive⟩)
  obtain ⟨e', hrun, -⟩ := resolve_of_valid receiver hkey hr hv
  rw [hrun, resolveAnew_fst, hstatic, directAnswer]
  cases hc : e.candidate false key with
  | none =>
    intro heq
    cases heq
  | some c =>
    rw [hc, Option.map_some] at hne
    dsimp only
    split
    · -- the search instantiates, and what is cached is dormant
      cases hm : e.platform.make c.handle with
      | error f =>
        intro heq
        cases heq
      | ok live =>
        intro heq
        have hlive : r.handle.isInstantiated = live.isInstantiated :=
          congrArg Prod.snd (Except.ok.inj heq)
        rw [hd, (Platform.make_eq_ok hm).2] at hlive
        cases hlive
    · intro heq
      exact hne (congrArg some (Except.ok.inj heq).symm)

/-- A lookup answers as the search does exactly if what is cached has not been overtaken. -/
theorem Consistent.resolve_fst_iff (he : e.Consistent) (hp : e.platform.Acyclic)
    (key : PropertyKey) (hkey : receiver.typeName = key.typeName)
    (hstatic : isStatic receiver = false) :
    (resolve receiver key.namespaceName key.name force e).1 = (resolveAnew receiver key force e).1 ↔
      ¬ e.Overtaken key force := by
  constructor
  · intro heq hover
    exact hover.resolve_status_ne hkey hstatic (congrArg _ heq)
  · intro hover
    by_cases hhit : ∃ r, e.registry.cache.find? key = some r ∧ r.isValid e.platform force = true
    · -- an entry that counts is instantiated, or dormant and then still found
      obtain ⟨r, hr, hv⟩ := hhit
      rcases Resolved.isValid_eq_true.1 hv with ⟨hlive, -⟩ | ⟨rfl, hd, hactive⟩
      · exact he.resolve_fst_of_live hp hkey hstatic hr hv hlive
      · refine he.resolve_fst_of_found hkey hstatic hr hd hactive ?_
        by_contra hne
        exact hover ⟨rfl, r, hr, hd, hactive, hne⟩
    · refine resolve_fst_of_invalid hkey fun r hr => ?_
      by_contra hv
      exact hhit ⟨r, hr, Bool.not_eq_false _ ▸ hv⟩

/-- **The cache shows exactly where it has been overtaken.** After any run, over a hierarchy without
cycles, a lookup on a receiver that is not a type answers as a direct search does unless what is
cached for it has been overtaken; then they tell different testers or states. -/
theorem run_resolve_eq_resolveAnew_iff {platform : Platform} {options : Options}
    {handlers : List Handler} {e₀ : Engine} (hmade : make platform options handlers = .ok e₀)
    (hp : platform.Acyclic) (ms : List Move) (receiver : Value)
    (hstatic : isStatic receiver = false) (namespaceName property : String) (force : Bool) :
    ((resolve receiver namespaceName property force (run ms e₀)).1 =
        (resolveAnew receiver ⟨receiver.typeName, namespaceName, property⟩ force (run ms e₀)).1 ↔
      ¬ (run ms e₀).Overtaken ⟨receiver.typeName, namespaceName, property⟩ force) ∧
    ((run ms e₀).Overtaken ⟨receiver.typeName, namespaceName, property⟩ force →
      (resolve receiver namespaceName property force (run ms e₀)).1.map (·.handle.status) ≠
        (resolveAnew receiver ⟨receiver.typeName, namespaceName, property⟩ force
          (run ms e₀)).1.map (·.handle.status)) := by
  obtain ⟨he₀, rfl⟩ := make_consistent hmade
  have he := run_consistent ms he₀
  have hp' := (Platform.acyclic_congr (run_types ms e₀)).2 hp
  exact ⟨he.resolve_fst_iff hp' ⟨receiver.typeName, namespaceName, property⟩ rfl hstatic,
    fun hover => hover.resolve_status_ne rfl hstatic⟩

/-- A declaration that answers for two properties of strings, by a contributor that is not active.
-/
def twoProperties : Descriptor := .ofFields "t" "string" "ns" "a,b" "TrueTester" "c"

/-- The first property is looked up, and then the second one with force. -/
def forcedSibling : List Move :=
  [.addTesters [twoProperties], .lookUp (.string "x") "ns" "a" false,
    .lookUp (.string "x") "ns" "b" true]

/-- After that the second property is answered for as by a search. -/
theorem resolve_eq_resolveAnew_forced :
    (resolve (.string "x") "ns" "b" true (run forcedSibling stringEngine)).1 =
      (resolveAnew (.string "x") ⟨"string", "ns", "b"⟩ true (run forcedSibling stringEngine)).1 :=
  (run_resolve_eq_resolveAnew_iff make_stringEngine stringHost_acyclic forcedSibling (.string "x")
    rfl "ns" "b" true).1.2 (by decide)

/-- And the first one is not: the cache tells that the tester is dormant, and the search finds it
instantiated. -/
theorem resolve_ne_resolveAnew_sibling :
    make stringHost {} [] = .ok stringEngine ∧ stringHost.Acyclic ∧
      (resolve (.string "x") "ns" "a" false (run forcedSibling stringEngine)).1.map
          (·.handle.status) = .ok (twoProperties, false) ∧
      (resolveAnew (.string "x") ⟨"string", "ns", "a"⟩ false
          (run forcedSibling stringEngine)).1.map (·.handle.status) = .ok (twoProperties, true) :=
  ⟨make_stringEngine, stringHost_acyclic, rfl, rfl⟩

end Engine

end Enablement

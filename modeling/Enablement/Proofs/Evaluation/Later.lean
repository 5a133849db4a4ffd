import Enablement.Proofs.Definitions
import Enablement.Proofs.Registry.Pinned
/-!
# Evaluation — what comes later

While an engine is used and nothing is registered or removed, it changes in few ways: objects are
made, contributors come and go, and adapters that were only declared are loaded. One engine comes
later than another one in this sense (`Engine.Later`) if the platform has moved on no further than
that, names are defined alike, searches go by the same supertypes, and the answers that stay have
stayed. Evaluation and the loading of what is declared lead to later engines.
-/

namespace Enablement

open Registry

/-! ## Platforms -/

namespace Platform

/-- A platform that differs from an earlier one in nothing that expressions see, but for adapters
that were declared before and are loaded now. -/
structure Onward (p p' : Platform) : Prop where
  types : p'.types = p.types
  properties : p'.properties = p.properties
  adapters : ∀ v target, p'.adapter? v target = p.adapter? v target ∨
    p.adapter? v target = some .declared ∧ ∃ f, p'.adapter? v target = some (.loaded f)

variable {p p' p'' : Platform}

theorem Onward.refl (p : Platform) : Onward p p := ⟨rfl, rfl, fun _ _ => .inl rfl⟩

theorem Onward.trans (h : Onward p p') (h' : Onward p' p'') : Onward p p'' where
  types := h'.types.trans h.types
  properties := h'.properties.trans h.properties
  adapters v target := by
    rcases h'.adapters v target with heq' | ⟨hdeclared', f, hloaded⟩
    · rw [heq']
      exact h.adapters v target
    · refine .inr ⟨?_, f, hloaded⟩
      rcases h.adapters v target with heq | ⟨hdeclared, -⟩
      · rw [← heq, hdeclared']
      · exact hdeclared

/-- Loads the adapter between two types, if one has been declared. -/
def loadAdapter (p : Platform) (source target : String) (f : Value → Option Value) : Platform :=
  match (p.adapters.find? source).bind (·.find? target) with
  | some .declared => p.putAdapter source target (.loaded f)
  | _ => p

theorem onward_loadAdapter (p : Platform) (source target : String) (f : Value → Option Value) :
    Onward p (p.loadAdapter source target f) := by
  rw [loadAdapter]
  split
  · rename_i hdeclared
    refine ⟨rfl, rfl, fun v target' => ?_⟩
    rw [adapter?, adapter?, putAdapter, NameMap.find?_insert]
    by_cases hsource : v.typeName = source
    · rw [if_pos hsource, Option.bind_some, NameMap.find?_insert, hsource]
      by_cases htarget : target' = target
      · rw [if_pos htarget, htarget]
        exact .inr ⟨hdeclared, f, rfl⟩
      · rw [if_neg htarget]
        left
        cases p.adapters.find? source with
        | none => exact NameMap.find?_empty _
        | some adapters => rfl
    · rw [if_neg hsource]
      exact .inl rfl
  · exact .refl p

end Platform

namespace Engine

variable {e e' e'' e₀ : Engine}

/-! ## Engines -/

/-- An engine that differs from an earlier one as use and loading lets it. -/
structure Later (e e' : Engine) : Prop where
  platform : e.platform.Onward e'.platform
  definitions : e.SameDefinitions e'
  superTypes : ∀ t, e'.registry.superTypes e'.platform t = e.registry.superTypes e.platform t
  pinned : ∀ key h, e.registry.Pinned key h → e'.registry.Pinned key h

namespace Later

theorem refl (e : Engine) : Later e e := ⟨.refl _, .refl e, fun _ => rfl, fun _ _ h => h⟩

theorem trans (h : Later e e') (h' : Later e' e'') : Later e e'' where
  platform := h.platform.trans h'.platform
  definitions := h.definitions.trans h'.definitions
  superTypes t := (h'.superTypes t).trans (h.superTypes t)
  pinned key hd hp := h'.pinned key hd (h.pinned key hd hp)

/-- Nothing in the registry has to change. -/
theorem of_registry (hp : e.platform.Onward e'.platform) (hd : e.SameDefinitions e')
    (hr : e'.registry = e.registry) : Later e e' := by
  refine ⟨hp, hd, fun t => ?_, fun key h hpinned => ?_⟩
  · rw [hr, Registry.superTypes, Registry.superTypes, Platform.superTypes_congr hp.types]
  · rw [hr]
    exact hpinned

end Later

/-- An orderly engine that comes later than another one. -/
structure Since (e₀ e : Engine) : Prop where
  orderly : e.Orderly
  later : e₀.Later e

theorem Orderly.since (he : e.Orderly) : Since e e := ⟨he, .refl e⟩

/-- What comes later goes by the same supertypes, so it does not go in circles either. -/
theorem Since.of_later (h : Since e₀ e) (hlater : e.Later e') (hsound : e'.registry.Sound) :
    Since e₀ e' := by
  refine ⟨⟨hsound, h.orderly.acyclic.mono fun t super hwalks => ?_⟩, h.later.trans hlater⟩
  rw [Walks, hlater.superTypes] at hwalks
  exact hwalks

/-- A lookup leads to a later engine. -/
theorem Orderly.later_resolve (he : e.Orderly) (receiver : Value)
    (namespaceName property : String) (force : Bool) :
    e.Later (resolve receiver namespaceName property force e).2 := by
  have hanswers := resolve_answers he.sound receiver namespaceName property force
  obtain ⟨_, _, hs⟩ := resolve_shows receiver namespaceName property force e
  obtain ⟨n, hplatform⟩ := hs.platform
  refine ⟨?_, (SameDefinitions.refl e).congr hs.definitions hs.handlers, fun t => ?_,
    fun key h hp => hanswers.keeps_pinned hp fun hkey => ?_⟩
  · rw [hplatform]
    exact ⟨rfl, rfl, fun _ _ => .inl rfl⟩
  · rw [hplatform]
    exact hs.superTypes t
  · subst hkey
    exact he.resolve_pinned hp rfl force

/-- **Lookups, definitions and events lead to later engines.** -/
theorem steady_since (e₀ : Engine) : Steady (Since e₀) where
  record e ev _ he :=
    he.of_later (.of_registry (.refl _) ((SameDefinitions.refl e).congr rfl rfl) rfl)
    he.orderly.sound
  resolve receiver namespaceName property force e he :=
    he.of_later (he.orderly.later_resolve receiver namespaceName property force)
      (resolve_answers he.orderly.sound receiver namespaceName property force).sound
  definition id e he := by
    have hdefinitions := (steady_sameDefinitions e).definition id e (.refl e)
    obtain ⟨notes, hd⟩ := definition_eq id e
    rw [hd] at hdefinitions ⊢
    exact he.of_later (.of_registry (.refl _) hdefinitions rfl) he.orderly.sound

/-! ## Loading -/

/-- What can be done to an engine without registering or removing anything. -/
inductive Loading where
  | lookUp (receiver : Value) (namespaceName property : String) (force : Bool)
  | evaluate (x : Expr) (ctx : Context)
  | activate (contributor : String)
  | deactivate (contributor : String)
  /-- The host loads an adapter that it has declared. -/
  | adapter (source target : String) (f : Value → Option Value)

/-- The engine afterwards. -/
def Loading.perform : Loading → Engine → Engine
  | .lookUp receiver namespaceName property force, e =>
    (Engine.resolve receiver namespaceName property force e).2
  | .evaluate x ctx, e => (Engine.evaluate x ctx e).2
  | .activate contributor, e => { e with platform := e.platform.activate contributor }
  | .deactivate contributor, e => { e with platform := e.platform.deactivate contributor }
  | .adapter source target f, e =>
    { e with platform := e.platform.loadAdapter source target f }

/-- The engine after a run of them. -/
def load (steps : List Loading) (e : Engine) : Engine :=
  steps.foldl (fun e step => step.perform e) e

/-- **Loading leads to a later engine.** -/
theorem Loading.perform_since (step : Loading) (he : Since e₀ e) : Since e₀ (step.perform e) := by
  have onward : ∀ {p}, e.platform.Onward p → Since e₀ { e with platform := p } := fun hp =>
    he.of_later (.of_registry hp ((SameDefinitions.refl e).congr rfl rfl) rfl) he.orderly.sound
  cases step with
  | lookUp receiver namespaceName property force =>
    exact (steady_since e₀).resolve receiver namespaceName property force e he
  | evaluate x ctx => exact evaluate_keeps (steady_since e₀) x ctx e he
  | activate contributor => exact onward ⟨rfl, rfl, fun _ _ => .inl rfl⟩
  | deactivate contributor => exact onward ⟨rfl, rfl, fun _ _ => .inl rfl⟩
  | adapter source target f => exact onward (Platform.onward_loadAdapter _ source target f)

/-- So does a run of it. -/
theorem load_since (steps : List Loading) (he : Since e₀ e) : Since e₀ (load steps e) := by
  induction steps generalizing e with
  | nil => exact he
  | cons step steps ih => exact ih (step.perform_since he)

end Engine

end Enablement

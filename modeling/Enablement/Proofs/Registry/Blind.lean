import Enablement.Engine.Conversion
import Enablement.Proofs.Registry.Steps
/-!
# Registry — what lookups do not see

Lookups go by types, contributors and classes. They never look at the system properties of the host
or at definitions, and they add to the journal without reading it. A change of engines that concerns
nothing else is one that they do not see (`Engine.Unlooked`); if it leaves the definitions alone,
conversions of definitions do not see it either (`Engine.Aside`). Run in the engine that is so
changed, such an act ends the same way and leaves the same engine behind, but for the change
(`Act.Blind`). Where an act does look at what is changed, this can still hold of the engines that
have a property.
-/

namespace Enablement

/-- The platform with other system properties. -/
def Platform.withProperties (p : Platform) (properties : NameMap String) : Platform :=
  { p with properties }

/-- The engine on a host with other system properties. -/
def Engine.withProperties (e : Engine) (properties : NameMap String) : Engine :=
  { e with platform := e.platform.withProperties properties }

/-- The engine with events before those that are in its journal. -/
def Engine.behind (e : Engine) (earlier : List Event) : Engine :=
  { e with journal := earlier ++ e.journal }

/-- An engine is one that has recorded nothing, behind what it has recorded. -/
theorem Engine.eq_behind_journal (e : Engine) : e = { e with journal := [] }.behind e.journal := by
  rw [behind, List.append_nil]

/-- The engine with other definitions. -/
def Engine.withDefinitions (e : Engine) (definitions : Definitions) : Engine :=
  { e with definitions }

/-- A change of engines that lookups do not see: on the host it concerns only system properties, and
the journal only what has been recorded before. -/
structure Engine.Unlooked (σ : Engine → Engine) : Prop where
  platform : ∀ e, ∃ properties, (σ e).platform = e.platform.withProperties properties
  options : ∀ e, (σ e).options = e.options
  registry : ∀ e, (σ e).registry = e.registry
  setObjectCount : ∀ e n, { σ e with platform := { (σ e).platform with objectCount := n } } =
    σ { e with platform := { e.platform with objectCount := n } }
  setRegistry : ∀ e registry, { σ e with registry } = σ { e with registry }
  record : ∀ e ev, (σ e).record ev = σ (e.record ev)

/-- A change of engines that concerns only what is on the host in system properties and what has
been recorded before. -/
structure Engine.Aside (σ : Engine → Engine) : Prop extends Engine.Unlooked σ where
  handlers : ∀ e, (σ e).handlers = e.handlers
  definitions : ∀ e, (σ e).definitions = e.definitions
  setDefinitions : ∀ e definitions, { σ e with definitions } = σ { e with definitions }

/-- Lookups do not see definitions. -/
theorem Engine.unlooked_withDefinitions (definitions : Definitions) :
    Engine.Unlooked (·.withDefinitions definitions) where
  platform e := ⟨e.platform.properties, rfl⟩
  options _ := rfl
  registry _ := rfl
  setObjectCount _ _ := rfl
  setRegistry _ _ := rfl
  record _ _ := rfl

/-- System properties are set aside by lookups. -/
theorem Engine.aside_withProperties (properties : NameMap String) :
    Engine.Aside (·.withProperties properties) where
  platform _ := ⟨properties, rfl⟩
  options _ := rfl
  handlers _ := rfl
  registry _ := rfl
  definitions _ := rfl
  setObjectCount _ _ := rfl
  setRegistry _ _ := rfl
  setDefinitions _ _ := rfl
  record _ _ := rfl

/-- So is what has been recorded before. -/
theorem Engine.aside_behind (earlier : List Event) : Engine.Aside (·.behind earlier) where
  platform e := ⟨e.platform.properties, rfl⟩
  options _ := rfl
  handlers _ := rfl
  registry _ := rfl
  definitions _ := rfl
  setObjectCount _ _ := rfl
  setRegistry _ _ := rfl
  setDefinitions _ _ := rfl
  record e ev := by
    rw [behind, behind, Engine.record, Engine.record, List.append_assoc]

namespace Act

variable {α β : Type} {P : Engine → Prop} {σ : Engine → Engine}

/-- Wherever a property of engines holds, a change of the engine changes nothing about an act. -/
def Blind (P : Engine → Prop) (σ : Engine → Engine) (x : Act α) : Prop :=
  ∀ e, P e → x (σ e) = ((x e).1, σ (x e).2)

/-- It changes nothing in any engine. -/
abbrev Unseeing (σ : Engine → Engine) (x : Act α) : Prop := Blind (fun _ => True) σ x

theorem Unseeing.blind {x : Act α} (h : Unseeing σ x) : Blind P σ x := fun e _ => h e trivial

namespace Blind

theorem pure (a : α) : Blind P σ (Pure.pure a : Act α) := fun _ _ => rfl

theorem fail (f : Fault) : Blind P σ (Act.fail f : Act α) := fun _ _ => rfl

theorem ofExcept (r : Except Fault α) : Blind P σ (Act.ofExcept r) := fun _ _ => rfl

/-- What is read may be anything that is not changed. -/
theorem read {f : Engine → α} (h : ∀ e, P e → f (σ e) = f e) : Blind P σ (Act.read f) := by
  intro e he
  rw [read_apply, read_apply, h e he]

theorem change {f : Engine → Engine} (h : ∀ e : Engine, f (σ e) = σ (f e)) :
    Blind P σ (Act.change f) := by
  intro e _
  rw [change_apply, change_apply, h]

/-- One act after another, if the second one is blind after what the first one can end with. -/
theorem bind_of_results {x : Act α} {f : α → Act β} (hx : Blind P σ x) (hk : Keeps P x)
    (hf : ∀ e a, P e → (x e).1 = .ok a → Blind P σ (f a)) : Blind P σ (x >>= f) := by
  intro e he
  have hxe := hx e he
  have hke := hk e he
  have hfe := fun a => hf e a he
  rcases hrun : x e with ⟨g | a, e'⟩
  · rw [hrun] at hxe
    rw [bind_of_error hrun, bind_of_error hxe]
  · rw [hrun] at hxe hke hfe
    rw [bind_of_ok hrun, bind_of_ok hxe]
    exact hfe a rfl e' hke

theorem bind {x : Act α} {f : α → Act β} (hx : Blind P σ x) (hk : Keeps P x)
    (hf : ∀ a, Blind P σ (f a)) : Blind P σ (x >>= f) :=
  hx.bind_of_results hk fun _ a _ _ => hf a

theorem ite {c : Prop} [Decidable c] {x y : Act α} (hx : Blind P σ x) (hy : Blind P σ y) :
    Blind P σ (if c then x else y) := by
  split
  · exact hx
  · exact hy

/-- What comes of the platform may be anything but for the system properties. -/
theorem platform (hσ : Engine.Aside σ) {f : Platform → Act α}
    (h : ∀ p properties, f (p.withProperties properties) = f p) (hf : ∀ p, Blind P σ (f p)) :
    Blind P σ (Act.read (·.platform) >>= f) := by
  intro e he
  obtain ⟨properties, hp⟩ := hσ.platform e
  rw [read_bind, read_bind, hp, h]
  exact hf e.platform e he

end Blind

/-- Acts that do not see a change do not see it one after another. -/
theorem Unseeing.bind {x : Act α} {f : α → Act β} (hx : Unseeing σ x)
    (hf : ∀ a, Unseeing σ (f a)) : Unseeing σ (x >>= f) :=
  Blind.bind hx (fun _ _ => trivial) hf

/-- An act that does not see what has been recorded runs as from an engine that has recorded
nothing. -/
theorem run_of_unseeing {x : Act α} (hx : ∀ earlier, Unseeing (·.behind earlier) x) (e : Engine) :
    x e = ((x { e with journal := [] }).1, (x { e with journal := [] }).2.behind e.journal) :=
  (congrArg x e.eq_behind_journal).trans (hx e.journal _ trivial)

end Act

namespace Engine

open Act

variable {σ : Engine → Engine}

namespace Unlooked

/-! ## What is not changed -/

theorem types (hσ : Unlooked σ) (e : Engine) : (σ e).platform.types = e.platform.types := by
  obtain ⟨properties, hp⟩ := hσ.platform e
  rw [hp, Platform.withProperties]

theorem classes (hσ : Unlooked σ) (e : Engine) : (σ e).platform.classes = e.platform.classes := by
  obtain ⟨properties, hp⟩ := hσ.platform e
  rw [hp, Platform.withProperties]

theorem objectCount (hσ : Unlooked σ) (e : Engine) :
    (σ e).platform.objectCount = e.platform.objectCount := by
  obtain ⟨properties, hp⟩ := hσ.platform e
  rw [hp, Platform.withProperties]

theorem isActive (hσ : Unlooked σ) (e : Engine) (h : Handle) :
    h.isActive (σ e).platform = h.isActive e.platform := by
  obtain ⟨properties, hp⟩ := hσ.platform e
  rw [hp]
  rfl

theorem isValid (hσ : Unlooked σ) (e : Engine) (r : Resolved) (force : Bool) :
    r.isValid (σ e).platform force = r.isValid e.platform force := by
  rw [Resolved.isValid, Resolved.isValid, hσ.isActive]

theorem superTypes (hσ : Unlooked σ) (e : Engine) (t : String) :
    (σ e).registry.superTypes (σ e).platform t = e.registry.superTypes e.platform t := by
  rw [hσ.registry, Registry.superTypes, Registry.superTypes, Platform.superTypes,
    Platform.superTypes, hσ.types]

theorem noteResolving (hσ : Unlooked σ) (e : Engine) (n : Note) :
    (σ e).noteResolving n = σ (e.noteResolving n) := by
  rw [Engine.noteResolving, Engine.noteResolving, hσ.options]
  split
  · exact hσ.record e _
  · rfl

theorem setSlot (hσ : Unlooked σ) (t : String) (i : Nat) (slot : Option Handle) (e : Engine) :
    (σ e).setSlot t i slot = σ (e.setSlot t i slot) := by
  rw [Engine.setSlot, Engine.setSlot, hσ.registry, hσ.setRegistry]

/-! ## Objects -/

theorem unseeing_createObject (hσ : Unlooked σ) (className contributor : String) :
    Unseeing σ (createObject className contributor) := by
  intro e _
  rw [createObject, createObject, hσ.classes]
  cases e.platform.classes.find? className with
  | none => rfl
  | some c =>
    dsimp only
    rw [hσ.objectCount, hσ.setObjectCount, hσ.record]

theorem unseeing_instantiate (hσ : Unlooked σ) (h : Handle) : Unseeing σ (instantiate h) := by
  rw [instantiate]
  split
  · exact .pure h
  · refine Unseeing.bind (.read fun e _ => hσ.objectCount e) fun number => ?_
    refine (hσ.unseeing_createObject _ _).bind fun c => ?_
    cases c with
    | tester run => exact .pure _
    | other => exact .fail _

theorem unseeing_instantiateSlot (hσ : Unlooked σ) (t : String) (i : Nat) (h : Handle) :
    Unseeing σ (instantiateSlot t i h) := by
  intro e _
  have hmade := hσ.unseeing_instantiate h (e.record (.requested t i)) trivial
  rw [instantiateSlot, instantiateSlot, hσ.record, hmade]
  rcases instantiate h (e.record (.requested t i)) with ⟨f | live, e'⟩
  · dsimp only
    rw [hσ.setSlot, note, note, hσ.record]
  · dsimp only
    rw [hσ.noteResolving, hσ.setSlot]

/-! ## Lookups -/

theorem unseeing_cached? (hσ : Unlooked σ) (key : PropertyKey) (force : Bool) :
    Unseeing σ (cached? key force) := by
  intro e _
  rw [cached?, cached?, hσ.registry]
  rcases e.registry.cache.get key with ⟨_ | r, cache⟩
  · rfl
  · dsimp only
    rw [hσ.isValid]
    split
    · rw [hσ.setRegistry]
    · rw [hσ.setRegistry]

/-- Acts that do not see the change are closed under what lookups do. -/
theorem unseeing_closed (hσ : Unlooked σ) : LookupClosed fun x => Unseeing σ x where
  pure a := .pure a
  fail f := .fail f
  bind hx hf := Unseeing.bind hx hf
  readSlots t := .read fun e _ => by rw [hσ.registry]
  readActive h := .read fun e _ => hσ.isActive e h
  readDepth := .read fun e _ => by
    rw [hσ.registry, Registry.searchDepth, Registry.searchDepth, hσ.types]
  setSlots t slots := .change fun e => by rw [hσ.registry, hσ.setRegistry]
  superTypes t := by
    refine Unseeing.bind (.read fun e _ => hσ.superTypes e t) fun supers => ?_
    refine Unseeing.bind (.change fun e => ?_) fun _ => .pure supers
    rw [hσ.registry, hσ.setRegistry]
  instantiateSlot := hσ.unseeing_instantiateSlot
  cached? := hσ.unseeing_cached?
  noteResolving n := .change fun e => hσ.noteResolving e n
  putCached r := .change fun e => by rw [putCached, putCached, hσ.registry, hσ.setRegistry]

/-- **Lookups do not see the change.** -/
theorem unseeing_resolve (hσ : Unlooked σ) (receiver : Value) (namespaceName property : String)
    (force : Bool) : Unseeing σ (resolve receiver namespaceName property force) := by
  intro e _
  rw [resolve_eq, resolve_eq, hσ.record]
  exact hσ.unseeing_closed.resolveFrom force receiver _ (e.record _) trivial

/-- Nor do questions to testers. -/
theorem unseeing_ask (hσ : Unlooked σ) (r : Resolved) (receiver : Value) (args : List Value)
    (expected : Option Value) : Unseeing σ (ask r receiver args expected) := by
  rw [ask]
  cases r.handle.object with
  | none => exact .fail _
  | some o => exact Unseeing.bind (.change fun e => hσ.record e _) fun _ => .pure _

/-! ## Definitions -/

theorem noteConversion (hσ : Unlooked σ) (n : Node) (r : Except Fault (Option Expr)) (e : Engine) :
    noteConversion n r (σ e) = σ (noteConversion n r e) := by
  rw [Engine.noteConversion, Engine.noteConversion]
  split
  · exact hσ.record e _
  · rfl

end Unlooked

namespace Aside

theorem converter (hσ : Aside σ) (e : Engine) : (σ e).converter = e.converter := by
  rw [Engine.converter, Engine.converter, hσ.handlers]

/-- Nor does the conversion of definitions. -/
theorem unseeing_definition (hσ : Aside σ) (id : String) : Unseeing σ (definition id) := by
  intro e _
  have hpending : pending? id (σ e) = pending? id e := by
    rw [pending?, pending?, hσ.definitions]
  rw [definition, definition, hpending, hσ.definitions, hσ.converter]
  rcases e.definitions.expression e.converter id with ⟨r, definitions⟩
  cases pending? id e with
  | none =>
    dsimp only
    rw [hσ.setDefinitions]
  | some n =>
    dsimp only
    rw [hσ.noteConversion, hσ.setDefinitions]

end Aside

end Engine

end Enablement

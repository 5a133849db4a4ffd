import Enablement.Proofs.Evaluation.Later
/-!
# Evaluation — instances that are answered with again

Once a lookup has answered with an instantiated tester, the same instance answers for the same type
and property until the registrations change (`Settled.resolve_again`). The cache does not bring this
about: it may have been filled with other answers meanwhile, and it drops the tester whenever a
lookup finds its contributor inactive. It is the search that ends with the tester again, whichever
other slots have been filled or cleared, so what comes in between is described by what it may do to
an engine (`Continues`).
-/

namespace Enablement

open Registry

namespace Engine

variable {e e' : Engine} {key : PropertyKey} {h : Handle}

/-- What an engine becomes while nothing is registered or removed and no type is declared: it is
used, and the host changes its other services or the definitions, or takes the journal. -/
inductive Continues (e : Engine) : Engine → Prop
  | refl : Continues e e
  | move {e' : Engine} (before : Continues e e') (m : Move) (hm : m.isRegistryChange = false) :
    Continues e (m.perform e')
  | host {e' : Engine} (before : Continues e e') (platform : Platform) (definitions : Definitions)
    (journal : List Event) (htypes : platform.types = e'.platform.types) :
    Continues e { e' with platform, definitions, journal }

/-- A run of such moves. -/
theorem Continues.run {ms : List Move} (hc : Continues e e')
    (hms : ∀ m ∈ ms, m.isRegistryChange = false) : Continues e (Engine.run ms e') := by
  induction ms generalizing e' with
  | nil => exact hc
  | cons m ms ih =>
    obtain ⟨hm, hms⟩ := List.forall_mem_cons.1 hms
    exact ih (hc.move m hm) hms

/-! ## What is pinned meanwhile -/

/-- An orderly engine in which a tester is pinned under a key. -/
structure Pins (e : Engine) (key : PropertyKey) (h : Handle) : Prop where
  orderly : e.Orderly
  pinned : e.registry.Pinned key h

/-- The registry and the declared types tell. -/
theorem Pins.congr (he : e.Pins key h) (hr : e'.registry = e.registry)
    (htypes : e'.platform.types = e.platform.types) : e'.Pins key h := by
  refine ⟨⟨?_, he.orderly.acyclic.mono fun t super hwalks => ?_⟩, ?_⟩
  · rw [hr]
    exact he.orderly.sound
  · rw [Walks, hr, Registry.superTypes, Platform.superTypes_congr htypes] at hwalks
    exact hwalks
  · rw [hr]
    exact he.pinned

/-- **What is pinned stays so through every move that leaves the registrations as they are.** -/
theorem Move.perform_pins {m : Move} (hm : m.isRegistryChange = false) (he : e.Pins key h) :
    (m.perform e).Pins key h := by
  have since : ∀ {e'}, Since e e' → e'.Pins key h := fun hs =>
    ⟨hs.orderly, hs.later.pinned key h he.pinned⟩
  cases m with
  | lookUp receiver namespaceName property force =>
    exact since ((steady_since e).resolve receiver namespaceName property force e he.orderly.since)
  | evaluate x ctx => exact since (evaluate_keeps (steady_since e) x ctx e he.orderly.since)
  | activate contributor => exact he.congr rfl rfl
  | deactivate contributor => exact he.congr rfl rfl
  | _ => cases hm

/-- And through every run of them. -/
theorem Continues.pins (hc : Continues e e') (he : e.Pins key h) : e'.Pins key h := by
  induction hc with
  | refl => exact he
  | move _ m hm ih => exact m.perform_pins hm ih
  | host _ _ _ _ htypes ih => exact ih.congr rfl htypes

/-- **Instances stay the answer.** In a settled engine over a hierarchy without cycles, let a lookup
answer with an instantiated tester. As long as nothing is registered or removed and the cache is not
flushed, every lookup of the same property on a receiver of the same type that does not stand for
the type itself answers with this very instance: whether it is forced, whichever contributors come
and go, whatever else is looked up, evicted or fails to be instantiated. -/
theorem Settled.resolve_again (he : e.Settled) (hacyclic : e.platform.Acyclic)
    {receiver : Value} {namespaceName property : String} {force : Bool} {x : Resolved}
    (hx : (resolve receiver namespaceName property force e).1 = .ok x)
    (hlive : x.handle.isInstantiated = true)
    (hc : Continues (resolve receiver namespaceName property force e).2 e')
    {receiver' : Value} (hvalue : isStatic receiver' = false)
    (htype : receiver'.typeName = receiver.typeName) (force' : Bool) :
    (resolve receiver' namespaceName property force' e').1 = .ok x := by
  have horderly := he.orderly hacyclic
  have hafter := (steady_since e).resolve receiver namespaceName property force e horderly.since
  have hanswers := resolve_answers horderly.sound receiver namespaceName property force
  have hkeyed := (hanswers.entry x hx).keyed
  rw [hx] at hanswers
  have hpins := hc.pins ⟨hafter.orderly, hanswers.pinned hafter.orderly hlive⟩
  obtain ⟨k, h⟩ := x
  cases hkeyed
  exact hpins.orderly.resolve_pinned_value hpins.pinned htype hvalue force'

/-- A declaration whose class the host does not know. -/
def ofUnknownClass : Descriptor := .ofFields "u" "Object" "ns" "q" "NoSuchTester" "d"

/-- An engine that caches one answer, with testers of strings and objects. -/
def narrowEngine : Engine :=
  run [.addTesters [ofUnknownClass, twoProperties, ofObjects]]
    { stringEngine with options := { capacity := 1 }, registry := .empty 1 }

theorem settled_narrowEngine : narrowEngine.Settled := by
  have hmade : make stringHost { capacity := 1 } [] =
      .ok { stringEngine with options := { capacity := 1 }, registry := .empty 1 } := rfl
  exact (Settled.made hmade).run _

/-- A forced lookup on a string has the tester of objects instantiated. Then its contributor comes
and goes, a forced lookup of another property fills the cache, one has a class looked up that is not
there, and the type of strings is asked about the property and is refused. A lookup on another
string, which is not forced, answers with the instance that there was at first. -/
theorem ofObjects_again :
    let first := resolve (.string "x") "ns" "p" true narrowEngine
    let later := run [.activate "c", .deactivate "c", .lookUp (.string "x") "ns" "a" true,
      .lookUp (.string "x") "ns" "q" true, .lookUp (.type "string") "ns" "p" false] first.2
    ∃ x, first.1 = .ok x ∧ x.handle.descriptor = ofObjects ∧ x.handle.isInstantiated = true ∧
      later.registry.cache.find? ⟨"string", "ns", "p"⟩ = none ∧
      (resolve (.string "y") "ns" "p" false later).1 = .ok x := by
  obtain ⟨x, hx, hd, hlive⟩ : ∃ x, (resolve (.string "x") "ns" "p" true narrowEngine).1 = .ok x ∧
      x.handle.descriptor = ofObjects ∧ x.handle.isInstantiated = true := ⟨_, rfl, rfl, rfl⟩
  exact ⟨x, hx, hd, hlive, rfl, settled_narrowEngine.resolve_again stringHost_acyclic hx hlive
    (Continues.refl.run (by decide)) rfl rfl false⟩

end Engine

end Enablement

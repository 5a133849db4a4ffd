import Enablement.Proofs.Evaluation.Keeps
import Enablement.Proofs.Registry.Invariant
/-!
# Registry — runs

An engine is used by looking properties up and evaluating expressions, while testers come and go and
contributors are activated and deactivated. Every such move keeps an engine consistent and leaves
the hierarchy as it is, so every run does (`run_consistent`, `run_types`).
-/

namespace Enablement

namespace Registry

variable {r : Registry}

/-! ## Changing the registrations -/

/-- A tester that is registered declares its type. -/
theorem Typed.register (hr : r.Typed) (d : Descriptor) : (r.register d).Typed := by
  intro t d' hd'
  rw [registrations, Registry.register, NameMap.find?_insert] at hd'
  split at hd'
  · rename_i ht
    subst ht
    rw [Option.getD_some, List.mem_append, List.mem_singleton] at hd'
    rcases hd' with hd' | rfl
    · exact hr _ d' hd'
    · rfl
  · exact hr t d' hd'

theorem Typed.add (hr : r.Typed) (ds : List Descriptor) : (r.add ds).Typed := by
  have hfold : (ds.foldl Registry.register r).Typed := by
    induction ds generalizing r with
    | nil => exact hr
    | cons d ds ih => exact ih (hr.register d)
  exact hfold

/-- What is kept of a list of testers was among them. -/
theorem mem_of_keepOthers {contributor : String} {ds kept : List Descriptor} {d : Descriptor}
    (hk : keepOthers contributor ds = some kept) (hd : d ∈ kept) : d ∈ ds := by
  rw [keepOthers] at hk
  split at hk
  · cases hk
  · rw [← Option.some.inj hk] at hd
    exact List.mem_of_mem_filter hd

theorem Typed.removeContributor (hr : r.Typed) (contributor : String) :
    (r.removeContributor contributor).Typed := by
  intro t d hd
  refine hr t d ?_
  have hfind : (r.removeContributor contributor).registered.find? t =
      (r.registered.find? t).bind (keepOthers contributor) :=
    NameMap.find?_filterMap _ r.registered t
  rw [registrations, hfind] at hd
  rw [registrations]
  cases hds : r.registered.find? t with
  | none =>
    rw [hds] at hd
    cases hd
  | some ds =>
    rw [hds, Option.bind_some] at hd
    cases hk : keepOthers contributor ds with
    | none =>
      rw [hk] at hd
      cases hd
    | some kept =>
      rw [hk] at hd
      exact mem_of_keepOthers hk hd

/-- Without nodes the slots are loaded from the registrations. -/
theorem placed_flush (r : Registry) : r.flush.Placed := by
  intro t i h hi
  have hmap : ((r.flush.registrations t).map fun d => some { descriptor := d })[i]? =
      some (some h) := hi
  rw [List.getElem?_map, Option.map_eq_some_iff] at hmap
  obtain ⟨d, hd, hh⟩ := hmap
  rw [hd, ← Option.some.inj hh]

end Registry

namespace Engine

open Registry

/-! ## Acts that leave the registry as it is -/

variable {e e' : Engine}

/-- Whether an engine is consistent is a matter of its registry and the declared types. -/
theorem Consistent.congr (he : e.Consistent) (hr : e'.registry = e.registry)
    (hp : e'.platform.types = e.platform.types) : e'.Consistent := by
  refine ⟨by rw [hr]; exact he.typed, by rw [hr]; exact he.placed, fun t => ?_, fun key x hx => ?_⟩
  · have hsupers := he.superTypes t
    rw [Registry.superTypes, Platform.superTypes_congr hp, hr]
    exact hsupers
  · rw [hr] at hx
    have hentered := he.cached key x hx
    refine ⟨hentered.keyed, hentered.handles, by rw [hr]; exact hentered.registered, ?_⟩
    rw [Reaches, hr, Platform.lineage_congr hp, Platform.acyclic_congr hp]
    exact hentered.live

/-- Converting an element leaves log lines only. -/
theorem noteConversion_eq (n : Node) (r : Except Fault (Option Expr)) (e : Engine) :
    ∃ notes : List Note,
      noteConversion n r e = { e with journal := e.journal ++ notes.map .noted } := by
  rw [noteConversion]
  split
  · exact ⟨[_], rfl⟩
  · exact ⟨[], by rw [List.map_nil, List.append_nil]⟩

/-- Asking for a definition may convert it, and leaves log lines only besides. -/
theorem definition_eq (id : String) (e : Engine) :
    ∃ notes : List Note, definition id e = ((e.definitions.expression e.converter id).1,
      { e with
        definitions := (e.definitions.expression e.converter id).2
        journal := e.journal ++ notes.map .noted }) := by
  rw [definition]
  rcases e.definitions.expression e.converter id with ⟨r, definitions⟩
  dsimp only
  split
  · rename_i n _
    obtain ⟨notes, hj⟩ := noteConversion_eq n (e.converter.convert? n) e
    rw [hj]
    exact ⟨notes, rfl⟩
  · exact ⟨[], by rw [List.map_nil, List.append_nil]⟩

/-- So it keeps what is a matter of neither the definitions nor the journal. -/
theorem definition_keeps {P : Engine → Prop}
    (h : ∀ (e : Engine) (definitions : Definitions) (notes : List Note), P e →
      P { e with definitions, journal := e.journal ++ notes.map .noted }) (id : String) :
    Act.Keeps P (definition id) := by
  intro e he
  obtain ⟨notes, hd⟩ := definition_eq id e
  rw [hd]
  exact h e _ notes he

/-- Lookups, definitions and events keep an engine consistent. -/
theorem steady_consistent : Steady Consistent where
  record _ _ _ he := he.congr rfl rfl
  resolve receiver namespaceName property force e he :=
    (resolve_resolves receiver ⟨_, namespaceName, property⟩ rfl force e).consistent he
  definition := definition_keeps fun _ _ _ he => he.congr rfl rfl

/-- They leave the hierarchy as it is. -/
theorem steady_types (types : NameMap (List String)) :
    Steady fun e => e.platform.types = types where
  record _ _ _ he := he
  resolve receiver namespaceName property force e he := by
    obtain ⟨_, _, hs⟩ := resolve_shows receiver namespaceName property force e
    exact hs.types.trans he
  definition := definition_keeps fun _ _ _ he => he

/-- They leave the options as they are. -/
theorem steady_options (options : Options) : Steady fun e => e.options = options where
  record _ _ _ he := he
  resolve receiver namespaceName property force e he := by
    obtain ⟨_, _, hs⟩ := resolve_shows receiver namespaceName property force e
    exact hs.options.trans he
  definition := definition_keeps fun _ _ _ he => he

/-! ## Moves -/

/-- With the nodes and the cache forgotten, an engine is consistent if its testers are typed. -/
theorem consistent_of_flush {r : Registry} (hr : e.registry = r.flush) (htyped : r.Typed) :
    e.Consistent := by
  refine ⟨by rw [hr]; exact htyped, by rw [hr]; exact placed_flush r, fun t => ?_,
    fun key x hx => ?_⟩
  · rw [hr]
    rfl
  · rw [hr] at hx
    cases hx

/-- A move: what is done to an engine in its use. -/
inductive Move where
  | lookUp (receiver : Value) (namespaceName property : String) (force : Bool)
  | evaluate (x : Expr) (ctx : Context)
  | addTesters (ds : List Descriptor)
  | removeContributor (contributor : String)
  | registryChanged
  | activate (contributor : String)
  | deactivate (contributor : String)

/-- The engine after a move, however the move ends. -/
def Move.perform : Move → Engine → Engine
  | .lookUp receiver namespaceName property force, e =>
    (Engine.resolve receiver namespaceName property force e).2
  | .evaluate x ctx, e => (Engine.evaluate x ctx e).2
  | .addTesters ds, e => Engine.addTesters ds e
  | .removeContributor contributor, e => (Engine.removeContributor contributor e).2
  | .registryChanged, e => Engine.registryChanged e
  | .activate contributor, e => { e with platform := e.platform.activate contributor }
  | .deactivate contributor, e => { e with platform := e.platform.deactivate contributor }

/-- The engine after a run of moves. -/
def run (ms : List Move) (e : Engine) : Engine := ms.foldl (fun e m => m.perform e) e

/-- **A move keeps an engine consistent.** -/
theorem Move.perform_consistent (m : Move) (he : e.Consistent) : (m.perform e).Consistent := by
  cases m with
  | lookUp receiver namespaceName property force => exact steady_consistent.resolve _ _ _ _ e he
  | evaluate x ctx => exact evaluate_keeps steady_consistent x ctx e he
  | addTesters ds =>
    have htyped : (ds.foldl register e.registry).Typed := he.typed.add ds
    exact consistent_of_flush rfl htyped
  | removeContributor contributor =>
    have htyped := he.typed.removeContributor contributor
    exact consistent_of_flush rfl htyped
  | registryChanged => exact consistent_of_flush rfl he.typed
  | activate contributor => exact he.congr rfl rfl
  | deactivate contributor => exact he.congr rfl rfl

/-- **A move leaves the hierarchy as it is.** -/
theorem Move.perform_types (m : Move) (e : Engine) :
    (m.perform e).platform.types = e.platform.types := by
  cases m with
  | lookUp receiver namespaceName property force => exact (steady_types _).resolve _ _ _ _ e rfl
  | evaluate x ctx => exact evaluate_keeps (steady_types _) x ctx e rfl
  | _ => rfl

/-- A run keeps an engine consistent. -/
theorem run_consistent (ms : List Move) (he : e.Consistent) : (run ms e).Consistent := by
  induction ms generalizing e with
  | nil => exact he
  | cons m ms ih => exact ih (m.perform_consistent he)

/-- A run leaves the hierarchy as it is. -/
theorem run_types (ms : List Move) (e : Engine) : (run ms e).platform.types = e.platform.types := by
  induction ms generalizing e with
  | nil => rfl
  | cons m ms ih => exact (ih (m.perform e)).trans (m.perform_types e)

/-- An engine that has just been made is consistent. -/
theorem make_consistent {platform : Platform} {options : Options} {handlers : List Handler}
    (hmade : make platform options handlers = .ok e) : e.Consistent ∧ e.platform = platform := by
  rw [make, Options.validate] at hmade
  split at hmade
  · cases hmade
  · obtain rfl := Except.ok.inj hmade
    refine ⟨consistent_of_flush (r := .empty options.capacity) rfl ?_, rfl⟩
    intro t d hd
    cases hd

/-! ## A small host -/

/-- A host where strings are objects, with one class of testers. -/
def stringHost : Platform :=
  { types := .ofList [("string", ["Object"])]
    classes := .ofList [("TrueTester", .tester fun _ _ _ _ => true)] }

/-- An engine on this host, as it is made. -/
def stringEngine : Engine := { platform := stringHost, handlers := [] }

theorem make_stringEngine : make stringHost {} [] = .ok stringEngine := rfl

theorem stringHost_acyclic : stringHost.Acyclic := by
  refine noCycle_of_rank (fun t => if t = "string" then 1 else 0) fun t super h => ?_
  have hsupers : stringHost.superTypes t = if t = "string" then ["Object"] else [] := by
    rw [Platform.superTypes, stringHost, NameMap.ofList, List.foldl_cons, List.foldl_nil,
      NameMap.find?_insert]
    split
    · rfl
    · rfl
  rw [Platform.Inherits, hsupers] at h
  split at h
  · rename_i ht
    rw [List.mem_singleton.1 h, ht]
    decide
  · cases h

end Engine

end Enablement

import Enablement.Engine.Lookup
import Enablement.Proofs.Act
/-!
# Registry — the steps of a lookup

A lookup is composed of a few steps: it leaves quiet events in the journal, has objects made,
remembers slots and supertypes, and uses the cache. What holds of each of these steps and of what is
composed of such acts holds of a search whatever it finds, and of the lookup from the moment that it
is in the journal (`LookupClosed.resolveFrom`). A property of engines that outlasts the steps
outlasts lookups (`Lasting.resolve`).
-/

namespace Enablement

/-- An event of a search: a log line, or a step towards an object. None of them is a question. -/
def Event.isQuiet : Event → Bool
  | .created _ => true
  | .requested _ _ => true
  | .noted _ => true
  | _ => false

namespace Engine

/-- What a lookup does once it is in the journal. -/
def resolveFrom (receiver : Value) (key : PropertyKey) (force : Bool) : Act Resolved := do
  match ← cached? key force with
  | some r => do
    Act.change (·.noteResolving (.cacheHit key))
    pure r
  | none => do
    Act.change (·.noteResolving (.cacheMiss key))
    let r ← resolveAnew receiver key force
    Act.change (putCached r)
    pure r

theorem resolve_eq (receiver : Value) (namespaceName property : String) (force : Bool)
    (e : Engine) :
    resolve receiver namespaceName property force e =
      resolveFrom receiver ⟨receiver.typeName, namespaceName, property⟩ force
        (e.record (.lookedUp ⟨receiver.typeName, namespaceName, property⟩ force)) := rfl

/-- Acts of a kind are closed under what lookups do: the steps of a lookup are of that kind, and so
are acts that are composed of such acts. -/
structure LookupClosed (kind : {α : Type} → Act α → Prop) : Prop where
  pure : ∀ {α : Type} (a : α), kind (Pure.pure a : Act α)
  fail : ∀ {α : Type} (f : Fault), kind (Act.fail f : Act α)
  bind : ∀ {α β : Type} {x : Act α} {f : α → Act β}, kind x → (∀ a, kind (f a)) → kind (x >>= f)
  readSlots : ∀ t, kind (Act.read (·.registry.slots t))
  readActive : ∀ h : Handle, kind (Act.read fun e => h.isActive e.platform)
  readDepth : kind (Act.read fun e => e.registry.searchDepth e.platform)
  setSlots : ∀ t slots,
    kind (Act.change fun e => { e with registry := e.registry.setSlots t slots })
  superTypes : ∀ t, kind (superTypes t)
  instantiateSlot : ∀ t i h, kind (instantiateSlot t i h)
  cached? : ∀ key force, kind (cached? key force)
  noteResolving : ∀ n, kind (Act.change (·.noteResolving n))
  putCached : ∀ r, kind (Act.change (putCached r))

namespace LookupClosed

variable {kind : {α : Type} → Act α → Prop} (namespaceName property : String) (force : Bool)

theorem findLocal (hk : LookupClosed kind) (t : String) :
    kind (findLocal namespaceName property force t) := by
  refine hk.bind (hk.readSlots t) fun slots => hk.bind (hk.setSlots t slots) fun _ => ?_
  cases Registry.firstHandling namespaceName property slots with
  | none => exact hk.pure none
  | some found =>
    refine hk.bind (hk.readActive found.2) fun active => ?_
    split
    · exact hk.bind (hk.instantiateSlot t found.1 found.2) fun live => hk.pure (some live)
    · exact hk.pure (some found.2)

theorem firstFound (hk : LookupClosed kind) {find : String → Act (Option Handle)}
    (hfind : ∀ t, kind (find t)) (ts : List String) : kind (firstFound find ts) := by
  induction ts with
  | nil => exact hk.pure none
  | cons t ts ih =>
    refine hk.bind (hfind t) fun found => ?_
    cases found with
    | some h => exact hk.pure (some h)
    | none => exact ih

theorem findInherited (hk : LookupClosed kind) (depth : Nat) (t : String) :
    kind (findInherited namespaceName property force depth t) := by
  induction depth generalizing t with
  | zero => exact hk.pure none
  | succ depth ih =>
    refine hk.bind (hk.findLocal namespaceName property force t) fun found => ?_
    cases found with
    | some h => exact hk.pure (some h)
    | none => exact hk.bind (hk.superTypes t) fun supers => hk.firstFound ih supers

theorem find (hk : LookupClosed kind) (static : Bool) (t : String) :
    kind (find namespaceName property force static t) := by
  cases static with
  | true => exact hk.findLocal namespaceName property force t
  | false =>
    exact hk.bind hk.readDepth fun depth => hk.findInherited namespaceName property force depth t

theorem resolveAnew (hk : LookupClosed kind) (receiver : Value) (key : PropertyKey) :
    kind (resolveAnew receiver key force) := by
  refine hk.bind (hk.find key.namespaceName key.name force _ _) fun found => ?_
  cases found with
  | some h => exact hk.pure _
  | none => exact hk.fail _

/-- **A lookup is of the kind that its steps are of.** -/
theorem resolveFrom (hk : LookupClosed kind) (receiver : Value) (key : PropertyKey) :
    kind (resolveFrom receiver key force) := by
  refine hk.bind (hk.cached? key force) fun found => ?_
  cases found with
  | some r => exact hk.bind (hk.noteResolving _) fun _ => hk.pure r
  | none =>
    refine hk.bind (hk.noteResolving _) fun _ => ?_
    refine hk.bind (hk.resolveAnew force receiver key) fun r => ?_
    exact hk.bind (hk.putCached r) fun _ => hk.pure r

end LookupClosed

/-! ## Properties of engines that outlast lookups -/

/-- A property of engines that the steps of a lookup keep. -/
structure Lasting (P : Engine → Prop) : Prop where
  record : ∀ e ev, ev.isQuiet = true → P e → P (e.record ev)
  objectCount : ∀ e n, P e → P { e with platform := { e.platform with objectCount := n } }
  setSlots : ∀ e t slots, P e → P { e with registry := e.registry.setSlots t slots }
  setSuperTypes : ∀ e t, P e →
    P { e with registry := e.registry.setSuperTypes t (e.registry.superTypes e.platform t) }
  setCache : ∀ e cache, P e → P { e with registry := { e.registry with cache } }

namespace Lasting

open Act

variable {P : Engine → Prop}

theorem noteResolving (hP : Lasting P) {e : Engine} (n : Note) (he : P e) :
    P (e.noteResolving n) := by
  rw [Engine.noteResolving]
  split
  · exact hP.record e _ rfl he
  · exact he

theorem createObject (hP : Lasting P) (className contributor : String) :
    Keeps P (createObject className contributor) := by
  intro e he
  rw [Engine.createObject]
  split
  · exact he
  · have hcounted := hP.objectCount e (e.platform.objectCount + 1) he
    exact hP.record _ _ rfl hcounted

theorem instantiate (hP : Lasting P) (h : Handle) : Keeps P (instantiate h) := by
  rw [Engine.instantiate]
  split
  · exact .pure h
  · refine (Keeps.read _).bind fun number => (hP.createObject _ _).bind fun c => ?_
    cases c with
    | tester run => exact .pure _
    | other => exact .fail _

/-- The slot is filled or cleared afterwards, and there is a log line in both cases. -/
theorem instantiateSlot (hP : Lasting P) (t : String) (i : Nat) (h : Handle) :
    Keeps P (instantiateSlot t i h) := by
  intro e he
  have hmade := hP.instantiate h _ (hP.record e (.requested t i) rfl he)
  rw [Engine.instantiateSlot]
  rcases hrun : Engine.instantiate h (e.record (.requested t i)) with ⟨f | live, e₁⟩
  · rw [hrun] at hmade
    exact hP.record _ _ rfl (hP.setSlots e₁ t _ hmade)
  · rw [hrun] at hmade
    have hnoted := hP.noteResolving (.instantiated h.descriptor.id) hmade
    exact hP.setSlots _ t _ hnoted

theorem cached? (hP : Lasting P) (key : PropertyKey) (force : Bool) :
    Keeps P (cached? key force) := by
  intro e he
  rw [Engine.cached?]
  split
  · exact he
  · split
    · exact hP.setCache e _ he
    · exact hP.setCache e _ he

/-- Acts that keep the property are closed under what lookups do. -/
theorem closed (hP : Lasting P) : LookupClosed fun x => Keeps P x where
  pure a := .pure a
  fail f := .fail f
  bind hx hf := hx.bind hf
  readSlots _ := .read _
  readActive _ := .read _
  readDepth := .read _
  setSlots t slots := .change fun e => hP.setSlots e t slots
  superTypes t := fun e he => hP.setSuperTypes e t he
  instantiateSlot := hP.instantiateSlot
  cached? := hP.cached?
  noteResolving n := .change fun _ => hP.noteResolving n
  putCached _ := .change fun e => hP.setCache e _

/-- **What outlasts the steps of a lookup outlasts the lookup**, from where it is in the journal. -/
theorem resolve (hP : Lasting P) (receiver : Value) (namespaceName property : String) (force : Bool)
    {e : Engine}
    (he : P (e.record (.lookedUp ⟨receiver.typeName, namespaceName, property⟩ force))) :
    P (resolve receiver namespaceName property force e).2 := by
  rw [resolve_eq]
  exact hP.closed.resolveFrom force receiver _ _ he

end Lasting

end Engine

end Enablement

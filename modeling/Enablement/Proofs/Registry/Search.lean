import Enablement.Engine.Lookup
import Enablement.Proofs.Act
/-!
# Registry — what a search finds

A search walks the types that it comes to in a fixed order (`searched`) and stops at the first slot
that answers for the property (`candidate`). Everything it does on the way is to remember slots and
supertypes, which changes nothing that is read off the registry (`Engine.Alike`), so a whole search
is one act on its candidate (`findInherited_eq`): the tester in the slot is instantiated or taken as
it is (`settle`).
-/

namespace Enablement

/-! ## What is read off a registry -/

namespace Registry

variable {r : Registry} {p : Platform} {t t' : String}

/-- The node of a type changes with a node put in for that type. -/
theorem node_insert (r : Registry) (t t' : String) (n : TypeNode) :
    ({ r with nodes := r.nodes.insert t n } : Registry).node t' =
      if t' = t then n else r.node t' := by
  simp only [node, NameMap.find?_insert]
  split
  · rfl
  · rfl

theorem slots_setSlots (s : List (Option Handle)) :
    (r.setSlots t s).slots t' = if t' = t then s else r.slots t' := by
  rw [slots, setSlots, node_insert]
  split
  · rfl
  · rfl

@[simp] theorem superTypes_setSlots (s : List (Option Handle)) :
    (r.setSlots t s).superTypes p t' = r.superTypes p t' := by
  rw [superTypes, setSlots, node_insert]
  split
  · rename_i h
    subst h
    rfl
  · rfl

@[simp] theorem slots_setSuperTypes (s : List String) :
    (r.setSuperTypes t s).slots t' = r.slots t' := by
  rw [slots, setSuperTypes, node_insert]
  split
  · rename_i h
    subst h
    rfl
  · rfl

theorem superTypes_setSuperTypes (s : List String) :
    (r.setSuperTypes t s).superTypes p t' = if t' = t then s else r.superTypes p t' := by
  rw [superTypes, setSuperTypes, node_insert]
  split
  · rfl
  · rfl

/-! ## The order of a search, and where it stops -/

/-- The types that a search from a type comes to, in order, to a depth. -/
def searched (r : Registry) (p : Platform) : (depth : Nat) → (t : String) → List String
  | 0, _ => []
  | depth + 1, t => t :: (r.superTypes p t).flatMap (r.searched p depth)

/-- The order is a matter of the supertypes. -/
theorem searched_congr {r' : Registry} (h : ∀ t, r'.superTypes p t = r.superTypes p t)
    (depth : Nat) (t : String) : r'.searched p depth t = r.searched p depth t := by
  induction depth generalizing t with
  | zero => rfl
  | succ depth ih => rw [searched, searched, h, funext ih]

/-- A slot that answers for a property, with what it holds. -/
structure Candidate where
  typeName : String
  place : Nat
  handle : Handle

/-- The first slot of a type that answers for a property. -/
def candidateOf (r : Registry) (namespaceName property t : String) : Option Candidate :=
  (firstHandling namespaceName property (r.slots t)).map fun e => ⟨t, e.1, e.2⟩

/-- The first slot of a list of types that answers for a property. -/
def candidate (r : Registry) (namespaceName property : String) (ts : List String) :
    Option Candidate :=
  ts.findSome? (r.candidateOf namespaceName property)

variable {namespaceName property : String} {l : List (Option Handle)}

/-- A first slot that does not answer is passed over. -/
theorem firstHandling_cons_of_not {s : Option Handle}
    (hs : ∀ h, s = some h → h.handles namespaceName property = false) :
    firstHandling namespaceName property (s :: l) =
      (firstHandling namespaceName property l).map fun e => (e.1 + 1, e.2) := by
  cases s with
  | none => rfl
  | some h =>
    rw [firstHandling, hs h rfl]
    rfl

/-- A first slot that answers is found. -/
theorem firstHandling_cons_of_handles {h : Handle}
    (hh : h.handles namespaceName property = true) :
    firstHandling namespaceName property (some h :: l) = some (0, h) := by
  rw [firstHandling, if_pos hh]

/-- A slot is found exactly if it answers and none before it does. -/
theorem firstHandling_eq_some {i : Nat} {h : Handle} :
    firstHandling namespaceName property l = some (i, h) ↔
      l[i]? = some (some h) ∧ h.handles namespaceName property = true ∧
        ∀ j < i, ∀ h', l[j]? = some (some h') → h'.handles namespaceName property = false := by
  induction l generalizing i with
  | nil => simp [firstHandling]
  | cons s l ih =>
    by_cases hs : ∀ h', s = some h' → h'.handles namespaceName property = false
    · rw [firstHandling_cons_of_not hs]
      cases i with
      | zero =>
        simp only [Option.map_eq_some_iff, Prod.mk.injEq, Nat.succ_ne_zero, false_and, and_false,
          exists_false, List.getElem?_cons_zero, Option.some.injEq, false_iff, not_and]
        intro hh hhandles
        rw [hs h hh] at hhandles
        cases hhandles
      | succ i =>
        have hmap : ((firstHandling namespaceName property l).map fun e => (e.1 + 1, e.2)) =
            some (i + 1, h) ↔ firstHandling namespaceName property l = some (i, h) := by
          simp [Option.map_eq_some_iff]
        rw [hmap, ih, List.getElem?_cons_succ]
        refine and_congr_right fun _ => and_congr_right fun _ => ⟨fun hj j hji h' hj' => ?_,
          fun hj j hji h' hj' => hj (j + 1) (Nat.succ_lt_succ hji) h' hj'⟩
        cases j with
        | zero => exact hs h' (Option.some.inj hj')
        | succ j => exact hj j (Nat.lt_of_succ_lt_succ hji) h' hj'
    · obtain ⟨h₀, rfl, hh⟩ : ∃ h₀, s = some h₀ ∧ h₀.handles namespaceName property = true := by
        simpa using hs
      rw [firstHandling_cons_of_handles hh]
      constructor
      · intro heq
        obtain ⟨rfl, rfl⟩ := Prod.mk.inj (Option.some.inj heq)
        exact ⟨rfl, hh, fun j hj => absurd hj (Nat.not_lt_zero j)⟩
      · rintro ⟨hi, -, hbefore⟩
        cases i with
        | zero => rw [Option.some.inj (Option.some.inj hi)]
        | succ i =>
          -- the first slot would have to be one that does not answer
          have hnot := hbefore 0 (Nat.succ_pos i) h₀ rfl
          rw [hh] at hnot
          cases hnot

/-- None is found exactly if none of the testers in the slots answers. -/
theorem firstHandling_eq_none :
    firstHandling namespaceName property l = none ↔
      ∀ h, some h ∈ l → h.handles namespaceName property = false := by
  induction l with
  | nil => simp [firstHandling]
  | cons s l ih =>
    cases s with
    | none => simp [firstHandling, ih]
    | some h₀ =>
      rw [firstHandling]
      cases hh : h₀.handles namespaceName property with
      | true => simp [hh]
      | false => simp [hh, ih]

theorem candidateOf_eq_some {c : Candidate}
    (h : r.candidateOf namespaceName property t = some c) :
    c.typeName = t ∧ (r.slots t)[c.place]? = some (some c.handle) ∧
      c.handle.handles namespaceName property = true := by
  obtain ⟨⟨i, h'⟩, hf, rfl⟩ := Option.map_eq_some_iff.1 h
  obtain ⟨hslot, hhandles, -⟩ := firstHandling_eq_some.1 hf
  exact ⟨rfl, hslot, hhandles⟩

/-- A candidate stands in a slot of one of the types searched, and answers for the property. -/
theorem candidate_eq_some {ts : List String} {c : Candidate}
    (h : r.candidate namespaceName property ts = some c) :
    c.typeName ∈ ts ∧ (r.slots c.typeName)[c.place]? = some (some c.handle) ∧
      c.handle.handles namespaceName property = true := by
  obtain ⟨t, ht, hc⟩ := List.exists_of_findSome?_eq_some h
  obtain ⟨rfl, hslot⟩ := candidateOf_eq_some hc
  exact ⟨ht, hslot⟩

/-- Searches look at the slots only. -/
theorem candidate_congr {r' : Registry} (h : ∀ t, r'.slots t = r.slots t)
    (namespaceName property : String) (ts : List String) :
    r'.candidate namespaceName property ts = r.candidate namespaceName property ts := by
  have hof : r'.candidateOf namespaceName property = r.candidateOf namespaceName property := by
    funext t
    rw [candidateOf, candidateOf, h]
  rw [candidate, candidate, hof]

/-- A search of a type and what comes behind it. -/
theorem candidate_cons (namespaceName property t : String) (ts : List String) :
    r.candidate namespaceName property (t :: ts) =
      (r.candidateOf namespaceName property t).or (r.candidate namespaceName property ts) := by
  rw [candidate, List.findSome?_cons]
  cases r.candidateOf namespaceName property t with
  | none => rfl
  | some c => rfl

theorem candidate_append (namespaceName property : String) (ts us : List String) :
    r.candidate namespaceName property (ts ++ us) =
      (r.candidate namespaceName property ts).or (r.candidate namespaceName property us) :=
  List.findSome?_append

end Registry

/-! ## Engines that differ in what has been remembered -/

namespace Engine

open Registry

/-- An engine is as another one was, but for slots and supertypes that it has remembered. -/
structure Alike (e e' : Engine) : Prop where
  platform : e'.platform = e.platform
  options : e'.options = e.options
  handlers : e'.handlers = e.handlers
  definitions : e'.definitions = e.definitions
  journal : e'.journal = e.journal
  registered : e'.registry.registered = e.registry.registered
  cache : e'.registry.cache = e.registry.cache
  slots : ∀ t, e'.registry.slots t = e.registry.slots t
  superTypes : ∀ t, e'.registry.superTypes e.platform t = e.registry.superTypes e.platform t

namespace Alike

variable {e e' e'' : Engine}

theorem refl (e : Engine) : Alike e e :=
  ⟨rfl, rfl, rfl, rfl, rfl, rfl, rfl, fun _ => rfl, fun _ => rfl⟩

theorem trans (h : Alike e e') (h' : Alike e' e'') : Alike e e'' where
  platform := h'.platform.trans h.platform
  options := h'.options.trans h.options
  handlers := h'.handlers.trans h.handlers
  definitions := h'.definitions.trans h.definitions
  journal := h'.journal.trans h.journal
  registered := h'.registered.trans h.registered
  cache := h'.cache.trans h.cache
  slots t := (h'.slots t).trans (h.slots t)
  superTypes t := by
    have h'' := h'.superTypes t
    rw [h.platform] at h''
    exact h''.trans (h.superTypes t)

end Alike

/-- Remembering the slots of a type changes nothing else. -/
theorem alike_setSlots (e : Engine) (t : String) :
    Alike e { e with registry := e.registry.setSlots t (e.registry.slots t) } := by
  refine ⟨rfl, rfl, rfl, rfl, rfl, rfl, rfl, fun t' => ?_, fun t' => superTypes_setSlots _⟩
  rw [slots_setSlots]
  split
  · rename_i h
    rw [h]
  · rfl

/-- And neither does remembering its supertypes. -/
theorem alike_setSuperTypes (e : Engine) (t : String) :
    Alike e
      { e with registry := e.registry.setSuperTypes t (e.registry.superTypes e.platform t) } := by
  refine ⟨rfl, rfl, rfl, rfl, rfl, rfl, rfl, fun t' => slots_setSuperTypes _, fun t' => ?_⟩
  rw [superTypes_setSuperTypes]
  split
  · rename_i h
    rw [h]
  · rfl

/-! ## A search as one act -/

/-- Takes the tester of a candidate: instantiated if it has been, or if its contributor is active or
the lookup is forced, and as it is declared otherwise. -/
def settle (force : Bool) : Option Candidate → Act (Option Handle)
  | none => pure none
  | some c => do
    let active ← Act.read (fun e => c.handle.isActive e.platform)
    if !c.handle.isInstantiated && (force || active) then
      let live ← instantiateSlot c.typeName c.place c.handle
      pure (some live)
    else pure (some c.handle)

/-- With a candidate there is a tester or a fault. -/
theorem settle_some_ne (force : Bool) (c : Candidate) (e : Engine) :
    (settle force (some c) e).1 ≠ .ok none := by
  rw [settle, Act.read_bind]
  split
  · rw [Act.bind_apply]
    rcases instantiateSlot c.typeName c.place c.handle e with ⟨r, e'⟩
    cases r <;> simp
  · simp

/-- So what comes after it only has to hand the tester on. -/
theorem settle_some_bind (force : Bool) (c : Candidate)
    {k : Option Handle → Act (Option Handle)} (hk : ∀ h, k (some h) = pure (some h)) (e : Engine) :
    (settle force (some c) >>= k) e = settle force (some c) e := by
  have hne := settle_some_ne force c e
  rw [Act.bind_apply]
  rcases h : settle force (some c) e with ⟨r, e'⟩
  rw [h] at hne
  cases r with
  | error f => rfl
  | ok found =>
    cases found with
    | none => exact absurd rfl hne
    | some h' => exact congrFun (hk h') e'

variable {namespaceName property : String} {force : Bool}

/-- A search of one type acts on the candidate there. -/
theorem findLocal_eq (namespaceName property : String) (force : Bool) (t : String) (e : Engine) :
    ∃ e₁, Alike e e₁ ∧ findLocal namespaceName property force t e =
      settle force (e.registry.candidateOf namespaceName property t) e₁ := by
  refine ⟨_, alike_setSlots e t, ?_⟩
  rw [findLocal, Act.read_bind, Act.change_bind, candidateOf]
  cases firstHandling namespaceName property (e.registry.slots t) with
  | none => rfl
  | some found => rfl

/-- Searches one after another act on the first candidate, if each acts on its own. -/
theorem firstFound_eq {e₀ : Engine} {find : String → Act (Option Handle)}
    {order : String → List String}
    (hfind : ∀ t e, Alike e₀ e → ∃ e₁, Alike e₀ e₁ ∧ find t e =
      settle force (e₀.registry.candidate namespaceName property (order t)) e₁)
    (ts : List String) (e : Engine) (he : Alike e₀ e) :
    ∃ e₁, Alike e₀ e₁ ∧ firstFound find ts e =
      settle force (e₀.registry.candidate namespaceName property (ts.flatMap order)) e₁ := by
  induction ts generalizing e with
  | nil => exact ⟨e, he, rfl⟩
  | cons t ts ih =>
    obtain ⟨e₁, he₁, h₁⟩ := hfind t e he
    rw [List.flatMap_cons, candidate_append, firstFound]
    cases hc : e₀.registry.candidate namespaceName property (order t) with
    | some c =>
      rw [hc] at h₁
      refine ⟨e₁, he₁, (Act.bind_congr h₁ _).trans ?_⟩
      refine settle_some_bind force c ?_ e₁
      exact fun _ => rfl
    | none =>
      rw [hc] at h₁
      rw [Act.bind_of_ok h₁]
      exact ih e₁ he₁

/-- **A search of a type and its supertypes acts on the first candidate in the order of the
search.** The induction is on the depth; the engine before is held fixed, since what is remembered
on the way changes neither the order nor the slots. -/
theorem findInherited_eq (namespaceName property : String) (force : Bool) (depth : Nat)
    (e₀ : Engine) (t : String) (e : Engine) (he : Alike e₀ e) :
    ∃ e₁, Alike e₀ e₁ ∧ findInherited namespaceName property force depth t e =
      settle force
        (e₀.registry.candidate namespaceName property
          (e₀.registry.searched e₀.platform depth t)) e₁ := by
  induction depth generalizing t e with
  | zero => exact ⟨e, he, rfl⟩
  | succ depth ih =>
    obtain ⟨e₁, he₁, h₁⟩ := findLocal_eq namespaceName property force t e
    have hc : e.registry.candidateOf namespaceName property t =
        e₀.registry.candidateOf namespaceName property t := by
      rw [candidateOf, candidateOf, he.slots]
    rw [hc] at h₁
    rw [searched, candidate_cons, findInherited]
    cases hc₀ : e₀.registry.candidateOf namespaceName property t with
    | some c =>
      rw [hc₀] at h₁
      refine ⟨e₁, he.trans he₁, (Act.bind_congr h₁ _).trans ?_⟩
      refine settle_some_bind force c ?_ e₁
      exact fun _ => rfl
    | none =>
      rw [hc₀] at h₁
      rw [Act.bind_of_ok h₁]
      -- nothing in the type itself: its supertypes are remembered and searched
      have he₁' := he.trans he₁
      have hsupers : e₁.registry.superTypes e₁.platform t =
          e₀.registry.superTypes e₀.platform t := by
        rw [he₁'.platform, he₁'.superTypes]
      obtain ⟨e₂, he₂, h₂⟩ := firstFound_eq (fun t e he => ih t e he)
        (e₀.registry.superTypes e₀.platform t) _ (he₁'.trans (alike_setSuperTypes e₁ t))
      refine ⟨e₂, he₂, ?_⟩
      rw [Option.none_or, ← h₂, ← hsupers]
      rfl

/-- The types that a lookup searches: for a receiver that is a type, that type alone. -/
def searched (e : Engine) (static : Bool) (t : String) : List String :=
  if static then [t] else e.registry.searched e.platform (e.registry.searchDepth e.platform) t

/-- The slot that a lookup comes to, the cache aside. -/
def candidate (e : Engine) (static : Bool) (key : PropertyKey) : Option Candidate :=
  e.registry.candidate key.namespaceName key.name (e.searched static key.typeName)

/-- **A direct search acts on the candidate**, and leaves the engine as it was up to what is
remembered. -/
theorem find_eq (key : PropertyKey) (force static : Bool) (e : Engine) :
    ∃ e₁, Alike e e₁ ∧ find key.namespaceName key.name force static key.typeName e =
      settle force (e.candidate static key) e₁ := by
  cases static with
  | true =>
    obtain ⟨e₁, he₁, h₁⟩ := findLocal_eq key.namespaceName key.name force key.typeName e
    refine ⟨e₁, he₁, ?_⟩
    rw [Engine.candidate, searched, if_pos rfl, candidate_cons, Registry.candidate,
      List.findSome?_nil, Option.or_none]
    exact h₁
  | false =>
    obtain ⟨e₁, he₁, h₁⟩ := findInherited_eq key.namespaceName key.name force
      (e.registry.searchDepth e.platform) e key.typeName e (Alike.refl e)
    exact ⟨e₁, he₁, h₁⟩

end Engine

end Enablement

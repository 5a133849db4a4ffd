import Enablement.Proofs.Registry.Remembered
/-!
# Registry — how deep searches go

A search goes from a type to its supertypes, to a depth. What would be done beyond it can be
anything at all (`Engine.searchTo`): where supertypes do not lead back to a type, a search never
comes there, if the depth is at least that of the registry (`Engine.resolve_sameOn`). Lookups leave
the supertypes as they are, so the depth does not depend on the lookups that have gone before.
-/

namespace Enablement.Engine

open Registry

/-! ## Lookups to a depth -/

/-- The tester for a type or one of its supertypes, to a depth. Beyond it something else is done. -/
def searchTo (beyond : String → Act (Option Handle)) (namespaceName property : String)
    (force : Bool) : (depth : Nat) → (t : String) → Act (Option Handle)
  | 0, t => beyond t
  | depth + 1, t => do
    match ← findLocal namespaceName property force t with
    | some h => pure (some h)
    | none =>
      firstFound (searchTo beyond namespaceName property force depth) (← superTypes t)

/-- The tester for a receiver's type, to a depth; for a receiver that is a type, among its own. -/
def findTo (beyond : String → Act (Option Handle)) (depth : Nat) (namespaceName property : String)
    (force static : Bool) (t : String) : Act (Option Handle) :=
  if static then findLocal namespaceName property force t
  else searchTo beyond namespaceName property force depth t

/-- Resolves a property of a receiver by a search to a depth, the cache aside. -/
def resolveAnewTo (beyond : String → Act (Option Handle)) (depth : Nat) (receiver : Value)
    (key : PropertyKey) (force : Bool) : Act Resolved := do
  match ← findTo beyond depth key.namespaceName key.name force (isStatic receiver) key.typeName with
  | some h => pure ⟨key, h⟩
  | none => Act.fail (.unknownProperty key.namespaceName key.name key.typeName)

/-- Resolves a property of a receiver by a search to a depth. -/
def resolveTo (beyond : String → Act (Option Handle)) (depth : Nat) (receiver : Value)
    (namespaceName property : String) (force : Bool) : Act Resolved := do
  let key : PropertyKey := ⟨receiver.typeName, namespaceName, property⟩
  Act.change (·.record (.lookedUp key force))
  match ← cached? key force with
  | some r => do
    Act.change (·.noteResolving (.cacheHit key))
    pure r
  | none => do
    Act.change (·.noteResolving (.cacheMiss key))
    let r ← resolveAnewTo beyond depth receiver key force
    Act.change (putCached r)
    pure r

/-! ## The supertypes that searches go by -/

open Act

/-- Searches go by the same supertypes in two engines. -/
def SameSuperTypes (e e' : Engine) : Prop :=
  ∀ t, e'.registry.superTypes e'.platform t = e.registry.superTypes e.platform t

variable {e₀ e : Engine} {rank : String → ℕ} {depth depth' : ℕ}
  {beyond : String → Act (Option Handle)}

/-- Lookups leave them as they are. -/
theorem lasting_sameSuperTypes (e₀ : Engine) : Lasting e₀.SameSuperTypes where
  record _ _ _ he := he
  objectCount _ _ he := he
  setSlots e t slots he t' := (superTypes_setSlots slots).trans (he t')
  setSuperTypes e t he t' := by
    dsimp only
    rw [superTypes_setSuperTypes]
    split
    · rename_i ht
      rw [ht, he t]
    · exact he t'
  setCache _ _ he := he

/-- In a consistent engine on a host without cycles they lead back to no type. -/
theorem Consistent.noCycle_walks (he : e.Consistent) (hp : e.platform.Acyclic) :
    NoCycle (e.registry.Walks e.platform) :=
  hp.mono fun t super h => by
    rw [Walks, he.superTypes t] at h
    exact h

/-- **Where supertypes lead back to no type, they are ranked** below the depths of the registry in
both engines. -/
theorem exists_rank_lt_searchDepths (h : NoCycle (e₀.registry.Walks e₀.platform))
    (he : e₀.SameSuperTypes e) :
    ∃ rank : String → ℕ, (∀ t, rank t < e₀.registry.searchDepth e₀.platform) ∧
      (∀ t, rank t < e.registry.searchDepth e.platform) ∧
      ∀ t, ∀ super ∈ e₀.registry.superTypes e₀.platform t, rank super < rank t := by
  obtain ⟨rank, hbound, hlt⟩ := exists_rank_lt_searchDepth h fun _ _ hw => hw
  obtain ⟨rank', hbound', hlt'⟩ := exists_rank_lt_searchDepth h fun t super hw => by
    rw [Walks, he t]
    exact hw
  -- the smaller of two ranks is one
  exact ⟨fun t => min (rank t) (rank' t), fun t => min_lt_of_left_lt (hbound t),
    fun t => min_lt_of_right_lt (hbound' t),
    fun t super hsuper => min_lt_min (hlt t super hsuper) (hlt' t super hsuper)⟩

/-! ## Searches -/

/-- Searches in a list of types do the same if each of them does. -/
theorem firstFound_sameOn {P : Engine → Prop} {find find' : String → Act (Option Handle)}
    {ts : List String} (hk : ∀ t, Keeps P (find t)) (h : ∀ t ∈ ts, SameOn P (find t) (find' t)) :
    SameOn P (firstFound find ts) (firstFound find' ts) := by
  induction ts with
  | nil => exact .refl _
  | cons t ts ih =>
    obtain ⟨ht, hts⟩ := List.forall_mem_cons.1 h
    refine ht.bind (hk t) fun found => ?_
    cases found with
    | some h => exact .refl _
    | none => exact ih hts

/-- **A search goes no deeper than the rank of the type** that it starts from. -/
theorem findInherited_sameOn (namespaceName property : String) (force : Bool)
    (hrank : ∀ t, ∀ super ∈ e₀.registry.superTypes e₀.platform t, rank super < rank t) {t : String}
    (h : rank t < depth) (h' : rank t < depth') :
    SameOn e₀.SameSuperTypes (findInherited namespaceName property force depth t)
      (searchTo beyond namespaceName property force depth' t) := by
  have hk := (lasting_sameSuperTypes e₀).closed
  induction depth generalizing depth' t with
  | zero => omega
  | succ depth ih =>
    obtain _ | depth' := depth'
    · omega
    · refine (SameOn.refl _).bind (hk.findLocal namespaceName property force t) fun found => ?_
      cases found with
      | some h => exact .refl _
      | none =>
        refine (SameOn.refl _).bind_of_results (hk.superTypes t) fun e supers he hsupers => ?_
        have hss : e.registry.superTypes e.platform t = supers := Except.ok.inj hsupers
        refine firstFound_sameOn (hk.findInherited namespaceName property force depth)
          fun super hsuper => ?_
        have hlt := hrank t super (by rw [← he t, hss]; exact hsuper)
        exact ih (by omega) (by omega)

/-! ## Lookups -/

/-- **Lookups search no deeper than the registry allows for**, whatever would be done beyond. -/
theorem resolve_sameOn (h : NoCycle (e₀.registry.Walks e₀.platform))
    (hdepth : e₀.registry.searchDepth e₀.platform ≤ depth)
    (beyond : String → Act (Option Handle)) (receiver : Value) (namespaceName property : String)
    (force : Bool) :
    SameOn e₀.SameSuperTypes (resolve receiver namespaceName property force)
      (resolveTo beyond depth receiver namespaceName property force) := by
  have hk := (lasting_sameSuperTypes e₀).closed
  have hfind : ∀ static t, SameOn e₀.SameSuperTypes (find namespaceName property force static t)
      (findTo beyond depth namespaceName property force static t) := by
    intro static t e he
    cases static with
    | true => rfl
    | false =>
      obtain ⟨rank, hbound, hbound', hrank⟩ := exists_rank_lt_searchDepths h he
      exact findInherited_sameOn namespaceName property force hrank (hbound' t)
        ((hbound t).trans_le hdepth) e he
  refine (SameOn.refl _).bind (Keeps.change fun _ he => he) fun _ => ?_
  refine (SameOn.refl _).bind (hk.cached? _ force) fun found => ?_
  cases found with
  | some r => exact .refl _
  | none =>
    refine (SameOn.refl _).bind (hk.noteResolving _) fun _ => ?_
    refine SameOn.bind ?_ (hk.resolveAnew force receiver _) fun r => .refl _
    exact (hfind _ _).bind (hk.find _ _ force _ _) fun found => .refl _

end Enablement.Engine

import Enablement.Proofs.Rank
import Enablement.Proofs.Registry.Search
/-!
# Registry — the order of a search

In a hierarchy without cycles a search from a type ends at the types that have no supertypes, long
before it has gone as deep as it may. So the order in which it comes to types is a matter of the
hierarchy alone (`Platform.lineage`), whatever has been remembered so far.
-/

namespace Enablement

namespace Platform

/-- A type names another one among its direct supertypes. -/
def Inherits (p : Platform) (t super : String) : Prop := super ∈ p.superTypes t

/-- No type inherits from itself, directly or through others. -/
def Acyclic (p : Platform) : Prop := NoCycle p.Inherits

/-- A type and the types that it inherits from, depth first in order, to a depth. -/
def lineageTo (p : Platform) : (depth : Nat) → (t : String) → List String
  | 0, _ => []
  | depth + 1, t => t :: (p.superTypes t).flatMap (p.lineageTo depth)

/-- A type and the types that it inherits from. -/
def lineage (p : Platform) (t : String) : List String := p.lineageTo (p.types.size + 1) t

variable {p : Platform}

/-- Supertypes are a matter of the declared types. -/
theorem superTypes_congr {p' : Platform} (h : p'.types = p.types) (t : String) :
    p'.superTypes t = p.superTypes t := by
  rw [superTypes, superTypes, h]

theorem acyclic_congr {p' : Platform} (h : p'.types = p.types) : p'.Acyclic ↔ p.Acyclic := by
  have hinherits : p'.Inherits = p.Inherits := by
    funext t super
    rw [Inherits, Inherits, superTypes_congr h]
  rw [Acyclic, Acyclic, hinherits]

/-- So is whether a value is of a type. -/
theorem isInstance_congr {p' : Platform} (h : p'.types = p.types) (v : Value) (t : String) :
    p'.isInstance v t = p.isInstance v t := by
  have hleads : ∀ steps waiting seen,
      p'.leadsTo t steps waiting seen = p.leadsTo t steps waiting seen := by
    intro steps
    induction steps with
    | zero => exact fun _ _ => rfl
    | succ steps ih =>
      intro waiting seen
      cases waiting with
      | nil => rfl
      | cons s waiting => rw [leadsTo, leadsTo, superTypes_congr h, ih, ih]
  have hsubtype : ∀ s, p'.isSubtype s t = p.isSubtype s t := by
    intro s
    rw [isSubtype, isSubtype, searchSteps, searchSteps, h, hleads]
  cases v with
  | null => rfl
  | undefined => rfl
  | _ => exact hsubtype _

/-- So are lineages. -/
theorem lineage_congr {p' : Platform} (h : p'.types = p.types) (t : String) :
    p'.lineage t = p.lineage t := by
  have hto : ∀ depth t, p'.lineageTo depth t = p.lineageTo depth t := by
    intro depth
    induction depth with
    | zero => exact fun _ => rfl
    | succ depth ih =>
      intro t
      rw [lineageTo, lineageTo, superTypes_congr h, funext ih]
  rw [lineage, lineage, h, hto]

/-- A type with supertypes is a declared one. -/
theorem mem_names_of_inherits {t super : String} (h : p.Inherits t super) : t ∈ p.types.names := by
  rw [Inherits, superTypes] at h
  cases hf : p.types.find? t with
  | none =>
    rw [hf] at h
    cases h
  | some supers => exact NameMap.mem_names_of_find? hf

/-- Without cycles, a type is ranked above its supertypes. -/
theorem Acyclic.exists_rank (hp : p.Acyclic) :
    ∃ rank : String → ℕ, (∀ t, rank t < p.types.size + 1) ∧
      ∀ t, ∀ super ∈ p.superTypes t, rank super < rank t := by
  obtain ⟨rank, hle, hlt⟩ := Enablement.exists_rank hp p.types.names.toFinset
    fun t super h => List.mem_toFinset.2 (mem_names_of_inherits h)
  refine ⟨rank, fun t => ?_, fun t super h => hlt t super h⟩
  have hcard := p.types.names.toFinset_card_le
  have hsize : p.types.names.length = p.types.size := List.length_map _
  have := hle t
  omega

/-- Going deeper than the rank of a type finds nothing more. -/
theorem lineageTo_eq_of_rank {rank : String → ℕ}
    (hrank : ∀ t, ∀ super ∈ p.superTypes t, rank super < rank t) (depth depth' : ℕ) (t : String)
    (h : rank t < depth) (h' : rank t < depth') : p.lineageTo depth t = p.lineageTo depth' t := by
  induction depth generalizing depth' t with
  | zero => omega
  | succ depth ih =>
    obtain _ | depth' := depth'
    · omega
    · rw [lineageTo, lineageTo]
      congr 1
      refine List.flatMap_congr fun super hs => ?_
      have hlt := hrank t super hs
      exact ih depth' super (by omega) (by omega)

/-- **Every search that may go as deep as there are types comes to the whole lineage.** -/
theorem Acyclic.lineageTo_eq (hp : p.Acyclic) {depth : ℕ} (h : p.types.size < depth) (t : String) :
    p.lineageTo depth t = p.lineage t := by
  obtain ⟨rank, hle, hlt⟩ := hp.exists_rank
  have := hle t
  exact lineageTo_eq_of_rank hlt depth _ t (by omega) (by omega)

/-- A lineage starts with the type and goes on with the lineages of its supertypes. -/
theorem Acyclic.lineage_eq (hp : p.Acyclic) (t : String) :
    p.lineage t = t :: (p.superTypes t).flatMap p.lineage := by
  rw [← hp.lineageTo_eq (Nat.lt_succ_of_lt (Nat.lt_succ_self _)) t, lineageTo]
  rfl

end Platform

namespace Registry

variable {r : Registry} {p : Platform}

/-- A search goes by the supertypes that are remembered. -/
theorem searched_eq_lineageTo (h : ∀ t, r.superTypes p t = p.superTypes t) (depth : ℕ)
    (t : String) :
    r.searched p depth t = p.lineageTo depth t := by
  induction depth generalizing t with
  | zero => rfl
  | succ depth ih =>
    rw [searched, Platform.lineageTo, h]
    congr 1
    exact List.flatMap_congr fun super _ => ih super

/-- **The order of a search is the lineage**, if those are the supertypes declared. -/
theorem searched_eq_lineage (hp : p.Acyclic) (h : ∀ t, r.superTypes p t = p.superTypes t)
    (t : String) : r.searched p (r.searchDepth p) t = p.lineage t := by
  rw [searched_eq_lineageTo h, hp.lineageTo_eq]
  rw [searchDepth]
  omega

end Registry

end Enablement

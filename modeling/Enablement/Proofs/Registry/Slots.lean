import Enablement.Proofs.Registry.Resolve
/-!
# Registry — what becomes of candidates when a slot is filled

A search fills the slot of its candidate with an instance of the same declaration, or clears it.
Where no slot answered before none does afterwards, and a candidate that is instantiated stays one:
slots change only where a declaration was dormant, and the new content answers for nothing that the
old one did not answer for.
-/

namespace Enablement

namespace Registry

variable {namespaceName property t : String} {l : List (Option Handle)} {i j : Nat}
  {h h' : Handle} {slot : Option Handle}

/-- A slot holds an instance of a declaration, or nothing. -/
def Instances (d : Descriptor) (slot : Option Handle) : Prop :=
  ∀ h, slot = some h → h.descriptor = d

theorem handles_congr (hd : h'.descriptor = h.descriptor) :
    h'.handles namespaceName property = h.handles namespaceName property := by
  rw [Handle.handles, Handle.handles, hd]

/-! ## In the slots of one type -/

/-- What stands in a list of slots after one of them has changed answers for no more than before. -/
theorem handles_of_set (hj : l[j]? = some (some h)) (hs : Instances h.descriptor slot)
    (hi : (l.set j slot)[i]? = some (some h')) :
    ∃ h₀, l[i]? = some (some h₀) ∧
      h'.handles namespaceName property = h₀.handles namespaceName property := by
  rw [List.getElem?_set] at hi
  split at hi
  · rename_i hji
    subst hji
    -- the slot that has changed holds an instance of what it held
    split at hi
    · exact ⟨h, hj, handles_congr (hs h' (Option.some.inj hi))⟩
    · cases hi
  · exact ⟨h', hi, rfl⟩

/-- Where no slot answers, none does afterwards. -/
theorem firstHandling_set_none (hj : l[j]? = some (some h)) (hs : Instances h.descriptor slot)
    (hf : firstHandling namespaceName property l = none) :
    firstHandling namespaceName property (l.set j slot) = none := by
  rw [firstHandling_eq_none] at hf ⊢
  intro h' hh'
  obtain ⟨i, hi⟩ := List.mem_iff_getElem?.1 hh'
  obtain ⟨h₀, h₀i, hhandles⟩ := handles_of_set hj hs hi
  rw [hhandles]
  exact hf h₀ (List.mem_of_getElem? h₀i)

/-- A slot that answers goes on to answer when another one changes. -/
theorem firstHandling_set_ne (hj : l[j]? = some (some h)) (hs : Instances h.descriptor slot)
    (hf : firstHandling namespaceName property l = some (i, h')) (hij : j ≠ i) :
    firstHandling namespaceName property (l.set j slot) = some (i, h') := by
  rw [firstHandling_eq_some] at hf ⊢
  obtain ⟨hi, hhandles, hbefore⟩ := hf
  refine ⟨by rw [List.getElem?_set_ne hij, hi], hhandles, fun k hk g hg => ?_⟩
  obtain ⟨g₀, hg₀, hgh⟩ := handles_of_set hj hs hg
  rw [hgh]
  exact hbefore k hk g₀ hg₀

/-- It answers with what it is filled with. -/
theorem firstHandling_set_self (hd : h'.descriptor = h.descriptor)
    (hf : firstHandling namespaceName property l = some (i, h)) :
    firstHandling namespaceName property (l.set i (some h')) = some (i, h') := by
  rw [firstHandling_eq_some] at hf ⊢
  obtain ⟨hi, hhandles, hbefore⟩ := hf
  have hlt : i < l.length := (List.getElem?_eq_some_iff.1 hi).1
  refine ⟨List.getElem?_set_self hlt, by rw [handles_congr hd, hhandles], fun k hk g hg => ?_⟩
  rw [List.getElem?_set_ne (Nat.ne_of_gt hk)] at hg
  exact hbefore k hk g hg

/-! ## In a search -/

variable {r r' : Registry} {c d : Candidate} {ts : List String}

/-- A registry holds given slots. -/
def Holds (r : Registry) (slots : String → List (Option Handle)) : Prop :=
  ∀ t, r.slots t = slots t

theorem candidateOf_fill_ne (hr : r'.Holds (r.fill c slot)) (ht : t ≠ c.typeName) :
    r'.candidateOf namespaceName property t = r.candidateOf namespaceName property t := by
  rw [candidateOf, candidateOf, hr, fill, if_neg ht]

/-- A type without a candidate has none afterwards. -/
theorem candidateOf_fill_none (hr : r'.Holds (r.fill c slot))
    (hc : (r.slots c.typeName)[c.place]? = some (some c.handle))
    (hs : Instances c.handle.descriptor slot)
    (hnone : r.candidateOf namespaceName property t = none) :
    r'.candidateOf namespaceName property t = none := by
  by_cases ht : t = c.typeName
  · subst ht
    rw [candidateOf, Option.map_eq_none_iff] at hnone ⊢
    rw [hr, fill, if_pos rfl]
    exact firstHandling_set_none hc hs hnone
  · rw [candidateOf_fill_ne hr ht, hnone]

/-- The candidate of a type is the same afterwards, if it is instantiated and the slot was not. -/
theorem candidateOf_fill_live (hr : r'.Holds (r.fill c slot))
    (hc : (r.slots c.typeName)[c.place]? = some (some c.handle))
    (hs : Instances c.handle.descriptor slot) (hdormant : c.handle.isInstantiated = false)
    (hd : r.candidateOf namespaceName property t = some d)
    (hlive : d.handle.isInstantiated = true) :
    r'.candidateOf namespaceName property t = some d := by
  by_cases ht : t = c.typeName
  · subst ht
    obtain ⟨⟨i, h'⟩, hf, rfl⟩ := Option.map_eq_some_iff.1 hd
    have hne : c.place ≠ i := by
      -- the same slot would be dormant and instantiated
      rintro rfl
      have hi := (firstHandling_eq_some.1 hf).1
      rw [hc] at hi
      have heq : c.handle = h' := Option.some.inj (Option.some.inj hi)
      rw [heq] at hdormant
      rw [hdormant] at hlive
      cases hlive
    rw [candidateOf, hr, fill, if_pos rfl, firstHandling_set_ne hc hs hf hne]
    rfl
  · rw [candidateOf_fill_ne hr ht, hd]

/-- The candidate of the type whose slot is filled is what it is filled with. -/
theorem candidateOf_fill_self (hr : r'.Holds (r.fill c (some h)))
    (hd : h.descriptor = c.handle.descriptor)
    (hc : r.candidateOf namespaceName property c.typeName = some c) :
    r'.candidateOf namespaceName property c.typeName = some { c with handle := h } := by
  obtain ⟨⟨i, h'⟩, hf, heq⟩ := Option.map_eq_some_iff.1 hc
  obtain ⟨t, place, handle⟩ := c
  cases heq
  rw [candidateOf, hr, fill, if_pos rfl, firstHandling_set_self hd hf]
  rfl

/-- A search comes to a candidate as before if the types before it have none, as before. -/
theorem candidate_of_candidateOf
    (hnone : ∀ t, r.candidateOf namespaceName property t = none →
      r'.candidateOf namespaceName property t = none)
    (hc : r.candidate namespaceName property ts = some c)
    (hd : r.candidateOf namespaceName property c.typeName = some c →
      r'.candidateOf namespaceName property c.typeName = some d) :
    r'.candidate namespaceName property ts = some d := by
  induction ts with
  | nil => cases hc
  | cons t ts ih =>
    rw [candidate_cons] at hc ⊢
    cases ht : r.candidateOf namespaceName property t with
    | none =>
      rw [ht, Option.none_or] at hc
      rw [hnone t ht, Option.none_or, ih hc]
    | some c' =>
      rw [ht] at hc
      obtain rfl : c' = c := Option.some.inj hc
      obtain ⟨rfl, -⟩ := candidateOf_eq_some ht
      rw [hd ht]
      rfl

/-- **A search that fills the slot of its candidate comes to the same slot again.** -/
theorem candidate_fill_self (hr : r'.Holds (r.fill c (some h)))
    (hd : h.descriptor = c.handle.descriptor)
    (hc : r.candidate namespaceName property ts = some c) :
    r'.candidate namespaceName property ts = some { c with handle := h } := by
  obtain ⟨-, hslot, -⟩ := candidate_eq_some hc
  have hs : Instances c.handle.descriptor (some h) := by
    intro h' hh'
    rw [← Option.some.inj hh', hd]
  exact candidate_of_candidateOf (fun _ => candidateOf_fill_none hr hslot hs) hc
    (candidateOf_fill_self hr hd)

/-! ## All that a search changes -/

/-- Slots as a search can leave them: as they were, or with a dormant one filled or cleared. -/
inductive Advance (r : Registry) : (String → List (Option Handle)) → Prop
  | same : Advance r r.slots
  | fill {c : Candidate} {slot : Option Handle}
    (holds : (r.slots c.typeName)[c.place]? = some (some c.handle))
    (dormant : c.handle.isInstantiated = false) (instances : Instances c.handle.descriptor slot) :
    Advance r (r.fill c slot)

variable {slots : String → List (Option Handle)}

/-- A slot holds an instance of what it held. -/
theorem Advance.descriptor (ha : r.Advance slots) (hi : (slots t)[i]? = some (some h)) :
    ∃ h₀, (r.slots t)[i]? = some (some h₀) ∧ h.descriptor = h₀.descriptor := by
  cases ha with
  | same => exact ⟨h, hi, rfl⟩
  | fill holds dormant instances =>
    rw [Registry.fill] at hi
    split at hi
    · rename_i ht
      subst ht
      rw [List.getElem?_set] at hi
      split at hi
      · rename_i hij
        subst hij
        split at hi
        · exact ⟨_, holds, instances h (Option.some.inj hi)⟩
        · cases hi
      · exact ⟨h, hi, rfl⟩
    · exact ⟨h, hi, rfl⟩

/-- A type without a candidate has none afterwards. -/
theorem Advance.candidateOf_none (ha : r.Advance slots) (hr : r'.Holds slots)
    (hnone : r.candidateOf namespaceName property t = none) :
    r'.candidateOf namespaceName property t = none := by
  cases ha with
  | same => rw [candidateOf, hr, ← hnone, candidateOf]
  | fill holds dormant instances => exact candidateOf_fill_none hr holds instances hnone

/-- The candidate of a type stays one if it is instantiated. -/
theorem Advance.candidateOf_live (ha : r.Advance slots) (hr : r'.Holds slots)
    (hd : r.candidateOf namespaceName property t = some d)
    (hlive : d.handle.isInstantiated = true) :
    r'.candidateOf namespaceName property t = some d := by
  cases ha with
  | same => rw [candidateOf, hr, ← hd, candidateOf]
  | fill holds dormant instances => exact candidateOf_fill_live hr holds instances dormant hd hlive

/-- **A candidate that is instantiated stays one.** -/
theorem Advance.candidate_live (ha : r.Advance slots) (hr : r'.Holds slots)
    (hd : r.candidate namespaceName property ts = some d)
    (hlive : d.handle.isInstantiated = true) :
    r'.candidate namespaceName property ts = some d :=
  candidate_of_candidateOf (fun _ => ha.candidateOf_none hr) hd
    fun hd => ha.candidateOf_live hr hd hlive

end Registry

end Enablement

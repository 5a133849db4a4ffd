import Mathlib.Data.Finset.Card
import Mathlib.Logic.Relation
/-!
# Ranks — how far a finite relation without cycles can lead

A relation leads from finitely many sources, and nothing leads back to itself. Then the sources that
can be reached are counted by a rank that goes down along the relation (`exists_rank`), and a
descent of as many steps as there are sources comes to an end. Searches that stop at a depth are
complete at that depth.
-/

namespace Enablement

open Relation

/-- Nothing leads back to itself. -/
def NoCycle {α : Type*} (r : α → α → Prop) : Prop := ∀ a, ¬ TransGen r a a

/-- A part of a relation without cycles has none. -/
theorem NoCycle.mono {α : Type*} {r r' : α → α → Prop} (hr : NoCycle r')
    (h : ∀ a b, r a b → r' a b) : NoCycle r :=
  fun a haa => hr a (TransGen.mono h _ _ haa)

/-- A relation along which a rank goes down has no cycles. -/
theorem noCycle_of_rank {α : Type*} {r : α → α → Prop} (rank : α → ℕ)
    (h : ∀ a b, r a b → rank b < rank a) : NoCycle r := by
  have hdown : ∀ {a b}, TransGen r a b → rank b < rank a := by
    intro a b hab
    induction hab with
    | single hab => exact h _ _ hab
    | tail _ hbc ih => exact (h _ _ hbc).trans ih
  exact fun a haa => (hdown haa).false

/-- Seen the other way round, a relation without cycles has none either. -/
theorem NoCycle.swap {α : Type*} {r : α → α → Prop} (hr : NoCycle r) :
    NoCycle (Function.swap r) :=
  fun a haa => hr a (TransGen.swap a a haa)

/-- What a new step adds to a relation: ways that pass over it. -/
theorem transGen_insert {α : Type*} {r : α → α → Prop} {c p a b : α}
    (h : TransGen (fun x y => r x y ∨ x = c ∧ y = p) a b) :
    TransGen r a b ∨ ReflTransGen r a c ∧ ReflTransGen r p b := by
  induction h with
  | single h =>
    obtain h | ⟨rfl, rfl⟩ := h
    · exact .inl (.single h)
    · exact .inr ⟨.refl, .refl⟩
  | tail _ h ih =>
    obtain h | ⟨rfl, rfl⟩ := h
    · exact ih.imp (·.tail h) fun ⟨hac, hpb⟩ => ⟨hac, hpb.tail h⟩
    · exact .inr ⟨ih.elim (·.to_reflTransGen) And.left, .refl⟩

/-- A new step closes no cycle unless its end led to its start. -/
theorem NoCycle.insert {α : Type*} {r : α → α → Prop} {c p : α} (hr : NoCycle r)
    (h : ¬ ReflTransGen r p c) : NoCycle fun x y => r x y ∨ x = c ∧ y = p := by
  intro a haa
  obtain haa | ⟨hac, hpa⟩ := transGen_insert haa
  · exact hr a haa
  · exact h (hpa.trans hac)

/-- **A finite relation without cycles has ranks.** The rank of a point is the number of sources
that can be reached from it, itself among them; a step loses the source that it starts from. -/
theorem exists_rank {α : Type*} {r : α → α → Prop} (hr : NoCycle r) (sources : Finset α)
    (hs : ∀ a b, r a b → a ∈ sources) :
    ∃ rank : α → ℕ, (∀ a, rank a ≤ sources.card) ∧ ∀ a b, r a b → rank b < rank a := by
  classical
  refine ⟨fun a => (sources.filter (ReflTransGen r a)).card,
    fun a => Finset.card_filter_le _ _, fun a b hab => Finset.card_lt_card ?_⟩
  have ha : a ∈ sources.filter (ReflTransGen r a) :=
    Finset.mem_filter.2 ⟨hs a b hab, ReflTransGen.refl⟩
  -- what `b` leads to, `a` leads to; but `b` does not lead back to `a`
  have hb : a ∉ sources.filter (ReflTransGen r b) := fun h =>
    hr a (TransGen.head' hab (Finset.mem_filter.1 h).2)
  refine ⟨fun c hc => ?_, fun hsub => hb (hsub ha)⟩
  obtain ⟨hcs, hbc⟩ := Finset.mem_filter.1 hc
  exact Finset.mem_filter.2 ⟨hcs, ReflTransGen.head hab hbc⟩

/-- Along a finite relation without cycles every walk comes to an end. -/
theorem NoCycle.wellFounded {α : Type*} {r : α → α → Prop} (hr : NoCycle r)
    (sources : Finset α) (hs : ∀ a b, r a b → a ∈ sources) :
    WellFounded fun b a => r a b := by
  obtain ⟨rank, -, hdown⟩ := exists_rank hr sources hs
  exact Subrelation.wf (fun {b a} hab => hdown a b hab) (InvImage.wf rank Nat.lt_wfRel.wf)

end Enablement

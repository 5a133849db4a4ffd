import Enablement.Proofs.Document.Forest
/-!
# Document trees — every walk along the links comes to an end

Walks are bounded by the number of nodes of the document. In a forest the bound is never met:
upwards and downwards the links are well-founded, the walk to the root finds every ancestor, the
walk through the children finds every child, and what a reader sees of an element is what it sees of
the children, put together.
-/

namespace Enablement

namespace Document

open Relation

variable {d : Document} {n p c : ℕ} {children : ℕ → List ℕ}

namespace Forest

variable (hd : Forest d children)
include hd

theorem wellFounded_up : WellFounded fun p c => d.ChildOf c p :=
  hd.noCycle.wellFounded (Finset.range d.nodes.length)
    fun _ _ h => Finset.mem_range.2 (lt_of_childOf h)

theorem wellFounded_down : WellFounded d.ChildOf :=
  hd.noCycle.swap.wellFounded (Finset.range d.nodes.length)
    fun _ _ h => Finset.mem_range.2 (hd.known h)

/-- What a reader sees does not depend on the depth that it may go to, once the rank is below. -/
theorem viewWithin_congr {rank : ℕ → ℕ} (hrank : ∀ p c, d.ChildOf c p → rank c < rank p)
    {fuel fuel' n : ℕ} (h : rank n < fuel) (h' : rank n < fuel') :
    d.viewWithin fuel n = d.viewWithin fuel' n := by
  induction fuel generalizing fuel' n with
  | zero => exact absurd h (Nat.not_lt_zero _)
  | succ fuel ih =>
    cases fuel' with
    | zero => exact absurd h' (Nat.not_lt_zero _)
    | succ fuel' =>
      have hchildren : (d.childNodes n).filterMap (d.viewWithin fuel) =
          (d.childNodes n).filterMap (d.viewWithin fuel') := by
        refine List.filterMap_congr fun c hc => ?_
        have hlt := hrank n c (hd.mem_iff.1 (hd.childNodes_eq n ▸ hc))
        exact ih (hlt.trans_le (Nat.le_of_lt_succ h)) (hlt.trans_le (Nat.le_of_lt_succ h'))
      rw [viewWithin, viewWithin, hchildren]

/-- **What a reader sees of an element**: its name, its attributes as they read, and what the reader
sees of the children. -/
theorem view?_eq (n : ℕ) : d.view? n =
    match d.kind? n with
    | some (.element name attributes) =>
      some (.mk name (attributes.map readAttribute) ((d.childNodes n).filterMap d.view?)
        d.contributor)
    | _ => none := by
  obtain ⟨rank, hle, hrank⟩ := exists_rank hd.noCycle.swap (Finset.range d.nodes.length)
    fun _ _ h => Finset.mem_range.2 (hd.known h)
  rw [Finset.card_range] at hle
  have hchildren : (d.childNodes n).filterMap (d.viewWithin d.nodes.length) =
      (d.childNodes n).filterMap d.view? := by
    refine List.filterMap_congr fun c hc => ?_
    have hlt := hrank n c (hd.mem_iff.1 (hd.childNodes_eq n ▸ hc))
    exact hd.viewWithin_congr hrank (hlt.trans_le (hle n)) (Nat.lt_succ_of_le (hle c))
  rw [view?, viewWithin]
  cases d.kind? n with
  | none => rfl
  | some kind =>
    cases kind with
    | element name attributes =>
      exact congrArg
        (fun cs => some (Node.mk name (attributes.map readAttribute) cs d.contributor)) hchildren
    | text t => rfl
    | comment t => rfl

end Forest

/-- **The links of a document are those of a forest**, whatever was done to it. No node is among the
children of two nodes, and none is its own ancestor. The chain of siblings from the first child of a
node on is finite and without repetitions, and consists of the nodes that were attached to it, in
this order. Walks upwards and downwards end, and find what they would find without their bound.
A node can be attached if both nodes are known, it has no parent, and it is neither the other node
nor above it; if it cannot, nothing changes, and if it can, it becomes the last child of this node
and the children of the others stay as they are. -/
theorem built_is_forest (contributor : Option String) (edits : List Edit) :
    let d := built contributor edits
    ((∀ p q c, c ∈ d.childNodes p → c ∈ d.childNodes q → p = q) ∧
      (∀ n c, c ∈ d.childNodes n ↔ d.parent? c = some n) ∧
      ∀ n, ¬ TransGen d.ChildOf n n) ∧
    (∀ n, Siblings d (d.firstChild? n) (attached n { contributor } edits) ∧
      (attached n { contributor } edits).Nodup ∧
      d.childNodes n = attached n { contributor } edits) ∧
    (WellFounded (fun p c => d.ChildOf c p) ∧ WellFounded d.ChildOf ∧
      (∀ a n, d.isAncestorOrSelf a n = true ↔ ReflTransGen d.ChildOf n a) ∧
      ∀ n, d.view? n =
        match d.kind? n with
        | some (.element name attributes) =>
          some (.mk name (attributes.map readAttribute) ((d.childNodes n).filterMap d.view?)
            d.contributor)
        | _ => none) ∧
    ∀ p c,
      ((d.append p c).2 = true ↔
        p < d.nodes.length ∧ c < d.nodes.length ∧ d.parent? c = none ∧
          ¬ ReflTransGen d.ChildOf p c) ∧
      ((d.append p c).2 = false → (d.append p c).1 = d) ∧
      ((d.append p c).2 = true → ∀ n, (d.append p c).1.childNodes n =
        if n = p then d.childNodes n ++ [c] else d.childNodes n) := by
  intro d
  have hd : Forest d fun n => attached n { contributor } edits := forest_built contributor edits
  refine ⟨⟨fun p q c hp hq => ?_, fun n c => ?_, hd.noCycle⟩,
    fun n => ⟨hd.siblings n, hd.nodup n, hd.childNodes_eq n⟩,
    ⟨hd.wellFounded_up, hd.wellFounded_down, hd.isAncestorOrSelf_iff, hd.view?_eq⟩,
    fun p c => ⟨?_, fun h => ?_, fun h n => ?_⟩⟩
  · rw [hd.childNodes_eq] at hp hq
    exact hd.eq_of_mem hp hq
  · rw [hd.childNodes_eq]
    exact hd.mem_iff
  · rw [append_snd]
    exact hd.canAppend_iff
  · rw [append_snd] at h
    rw [append_of_not h]
  · rw [append_snd] at h
    rw [(hd.append h).childNodes_eq, hd.childNodes_eq]
    rfl

/-- A condition in a conjunction, behind some text: the condition may get a child, and that changes
nothing for the conjunction; the conjunction may not be attached below its own child. -/
theorem built_is_forest_nested :
    let d := built none [.element "and", .text "\n", .append 0 1, .element "not", .append 0 2,
      .element "test"]
    d.childNodes 0 = [1, 2] ∧ (d.append 2 3).2 = true ∧
      (d.append 2 3).1.childNodes 0 = [1, 2] ∧ (d.append 2 3).1.childNodes 2 = [3] ∧
      (d.append 2 0).2 = false ∧ (d.append 2 0).1 = d := by
  intro d
  obtain ⟨-, hchildren, -, happend⟩ := built_is_forest none [.element "and", .text "\n",
    .append 0 1, .element "not", .append 0 2, .element "test"]
  have hattached : d.childNodes 0 = [1, 2] := (hchildren 0).2.2
  have htrue : (d.append 2 3).2 = true := by decide
  have hfalse : (d.append 2 0).2 = false := by decide
  exact ⟨hattached, htrue, ((happend 2 3).2.2 htrue 0).trans hattached,
    ((happend 2 3).2.2 htrue 2).trans (by decide), hfalse, (happend 2 0).2.1 hfalse⟩

end Document

end Enablement

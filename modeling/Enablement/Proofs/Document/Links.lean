import Enablement.Element.Tree
import Mathlib.Data.Nat.Notation
/-!
# Document trees — what an edit does to the links

A node that is unknown has no links, and a new node has none either, so that creating one changes no
link of any number. Attributes have nothing to do with links. What is left is attaching a node: it
changes the parent of the node, the last child of the parent, and one link that leads to the node,
from the last child before it or else from the parent.
-/

namespace Enablement

namespace Document

variable {d : Document} {n m p c : ℕ}

def parent? (d : Document) (n : ℕ) : Option ℕ := d.nodes[n]?.bind (·.parent)

def lastChild? (d : Document) (n : ℕ) : Option ℕ := d.nodes[n]?.bind (·.lastChild)

/-- `p` is the parent of `c`. -/
def ChildOf (d : Document) (c p : ℕ) : Prop := d.parent? c = some p

theorem lt_of_childOf (h : d.ChildOf c p) : c < d.nodes.length := by
  refine Nat.lt_of_not_le fun hc => ?_
  rw [ChildOf, parent?, List.getElem?_eq_none hc] at h
  cases h

/-! ## Edits -/

/-- What can be done to a document tree. -/
inductive Edit where
  | element (name : String)
  | text (t : String)
  | comment (t : String)
  | setAttribute (n : ℕ) (name value : String)
  /-- Makes `c` the last child of `p`, if it may be. -/
  | append (p c : ℕ)

/-- The document after an edit. -/
def perform (d : Document) : Edit → Document
  | .element name => (d.create (.element name [])).1
  | .text t => (d.create (.text t)).1
  | .comment t => (d.create (.comment t)).1
  | .setAttribute n name value => d.setAttribute n name value
  | .append p c => (d.append p c).1

/-- The document after some edits. -/
def after (d : Document) (edits : List Edit) : Document := edits.foldl perform d

/-- The document that some edits build, with a contributor for all its elements or without one. -/
def built (contributor : Option String) (edits : List Edit) : Document :=
  after { contributor } edits

/-! ## Changes of one node -/

theorem getElem?_modify (d : Document) (m n : ℕ) (f : DomNode → DomNode) :
    (d.modify m f).nodes[n]? = if m = n then d.nodes[n]?.map f else d.nodes[n]? := by
  rw [modify, List.getElem?_modify]
  split <;> simp

theorem length_modify (d : Document) (m : ℕ) (f : DomNode → DomNode) :
    (d.modify m f).nodes.length = d.nodes.length :=
  List.length_modify ..

variable {α : Type} (g : DomNode → Option α) (f : DomNode → DomNode)

/-- A change of something else leaves a part of a node as it is. -/
theorem bind_modify (hf : ∀ node, g (f node) = g node) (d : Document) (m n : ℕ) :
    (d.modify m f).nodes[n]?.bind g = d.nodes[n]?.bind g := by
  rw [getElem?_modify]
  split
  · cases d.nodes[n]? with
    | none => rfl
    | some node => exact hf node
  · rfl

/-- A part that is set to something is that from then on, of this node only. -/
theorem bind_modify_set {a : α} (hf : ∀ node, g (f node) = some a) {d : Document}
    (hm : m < d.nodes.length) (n : ℕ) :
    (d.modify m f).nodes[n]?.bind g = if n = m then some a else d.nodes[n]?.bind g := by
  rw [getElem?_modify]
  by_cases h : m = n
  · subst h
    rw [if_pos rfl, if_pos rfl, List.getElem?_eq_getElem hm]
    exact hf _
  · rw [if_neg h, if_neg (Ne.symm h)]

/-! ## New nodes and attributes -/

/-- A document has the links of another, for all numbers. -/
structure SameLinks (d d' : Document) : Prop where
  parent : ∀ n, d'.parent? n = d.parent? n
  firstChild : ∀ n, d'.firstChild? n = d.firstChild? n
  lastChild : ∀ n, d'.lastChild? n = d.lastChild? n
  nextSibling : ∀ n, d'.nextSibling? n = d.nextSibling? n
  size : d.nodes.length ≤ d'.nodes.length

/-- A new node has the links that its number had before: none. -/
theorem sameLinks_create (d : Document) (kind : DomKind) : SameLinks d (d.create kind).1 := by
  have hlink : ∀ g : DomNode → Option ℕ, g { kind } = none → ∀ n : ℕ,
      (d.create kind).1.nodes[n]?.bind g = d.nodes[n]?.bind g := by
    intro g hnew n
    rw [create, List.getElem?_append]
    by_cases hn : n < d.nodes.length
    · rw [if_pos hn]
    · rw [if_neg hn, List.getElem?_eq_none (Nat.le_of_not_lt hn), List.getElem?_singleton]
      split
      · exact hnew
      · rfl
  refine ⟨hlink (·.parent) rfl, hlink (·.firstChild) rfl, hlink (·.lastChild) rfl,
    hlink (·.nextSibling) rfl, ?_⟩
  rw [create, List.length_append]
  exact Nat.le_add_right _ _

theorem sameLinks_setAttribute (d : Document) (m : ℕ) (name value : String) :
    SameLinks d (d.setAttribute m name value) := by
  have hlink : ∀ g : DomNode → Option ℕ, (∀ node kind, g { node with kind } = g node) → ∀ n : ℕ,
      (d.setAttribute m name value).nodes[n]?.bind g = d.nodes[n]?.bind g := by
    intro g hg n
    refine bind_modify g _ (fun node => ?_) d m n
    cases node.kind with
    | element e attributes => exact hg node _
    | text t => rfl
    | comment t => rfl
  exact ⟨hlink (·.parent) fun _ _ => rfl, hlink (·.firstChild) fun _ _ => rfl,
    hlink (·.lastChild) fun _ _ => rfl, hlink (·.nextSibling) fun _ _ => rfl,
    Nat.le_of_eq (length_modify ..).symm⟩

/-! ## Attaching a node -/

theorem canAppend_iff : d.canAppend p c = true ↔
    p < d.nodes.length ∧ c < d.nodes.length ∧ d.parent? c = none ∧
      d.isAncestorOrSelf c p = false := by
  rw [canAppend, parent?]
  cases hp : d.nodes[p]? with
  | none =>
    have hlen := List.getElem?_eq_none_iff.1 hp
    simp [Nat.not_lt.2 hlen]
  | some parent =>
    have hplen := (List.getElem?_eq_some_iff.1 hp).1
    cases hc : d.nodes[c]? with
    | none =>
      have hlen := List.getElem?_eq_none_iff.1 hc
      simp [Nat.not_lt.2 hlen]
    | some child =>
      have hclen := (List.getElem?_eq_some_iff.1 hc).1
      simp [hplen, hclen]

theorem append_of_not (h : d.canAppend p c = false) : d.append p c = (d, false) := by
  rw [append, h]
  rfl

theorem append_snd (d : Document) (p c : ℕ) : (d.append p c).2 = d.canAppend p c := by
  rw [append]
  cases d.canAppend p c <;> rfl

def setParent (p : ℕ) (node : DomNode) : DomNode := { node with parent := some p }

def setFirstChild (c : ℕ) (node : DomNode) : DomNode := { node with firstChild := some c }

def setLastChild (c : ℕ) (node : DomNode) : DomNode := { node with lastChild := some c }

def setNextSibling (c : ℕ) (node : DomNode) : DomNode := { node with nextSibling := some c }

/-- The link that leads to an attached node. -/
def linkTo (d : Document) (p c : ℕ) : Document :=
  match d.lastChild? p with
  | some last => d.modify last (setNextSibling c)
  | none => d.modify p (setFirstChild c)

/-- Attaching a node changes three nodes one after another. -/
theorem append_of_can (h : d.canAppend p c = true) :
    (d.append p c).1 = ((d.linkTo p c).modify p (setLastChild c)).modify c (setParent p) := by
  rw [append, if_pos h]
  rfl

theorem length_linkTo (d : Document) (p c : ℕ) :
    (d.linkTo p c).nodes.length = d.nodes.length := by
  rw [linkTo]
  cases d.lastChild? p <;> exact length_modify ..

theorem length_append (d : Document) (p c : ℕ) :
    (d.append p c).1.nodes.length = d.nodes.length := by
  cases h : d.canAppend p c with
  | false => rw [append_of_not h]
  | true => rw [append_of_can h, length_modify, length_modify, length_linkTo]

/-- What is no link to a node stays as it is when the link is put. -/
theorem bind_linkTo (hfirst : ∀ c node, g (setFirstChild c node) = g node)
    (hnext : ∀ c node, g (setNextSibling c node) = g node) (d : Document) (p c n : ℕ) :
    (d.linkTo p c).nodes[n]?.bind g = d.nodes[n]?.bind g := by
  rw [linkTo]
  cases d.lastChild? p with
  | some last => exact bind_modify g _ (hnext c) d last n
  | none => exact bind_modify g _ (hfirst c) d p n

section Appended

variable (h : d.canAppend p c = true)
include h

theorem parent?_append (n : ℕ) :
    (d.append p c).1.parent? n = if n = c then some p else d.parent? n := by
  have hc : c < ((d.linkTo p c).modify p (setLastChild c)).nodes.length := by
    rw [length_modify, length_linkTo]
    exact (canAppend_iff.1 h).2.1
  have hbefore : ((d.linkTo p c).modify p (setLastChild c)).parent? n = d.parent? n :=
    (bind_modify (·.parent) (setLastChild c) (fun _ => rfl) _ _ _).trans
      (bind_linkTo (·.parent) (fun _ _ => rfl) (fun _ _ => rfl) _ _ _ _)
  rw [append_of_can h, ← hbefore]
  exact bind_modify_set (·.parent) _ (fun _ => rfl) hc n

theorem childOf_append (n m : ℕ) :
    (d.append p c).1.ChildOf n m ↔ d.ChildOf n m ∨ n = c ∧ m = p := by
  rw [ChildOf, parent?_append h, ChildOf]
  have hloose := (canAppend_iff.1 h).2.2.1
  by_cases hn : n = c
  · subst hn
    simp [hloose, eq_comm]
  · simp [hn]

theorem lastChild?_append (n : ℕ) :
    (d.append p c).1.lastChild? n = if n = p then some c else d.lastChild? n := by
  have hp : p < (d.linkTo p c).nodes.length := by
    rw [length_linkTo]
    exact (canAppend_iff.1 h).1
  have hbefore : (d.linkTo p c).lastChild? n = d.lastChild? n :=
    bind_linkTo (·.lastChild) (fun _ _ => rfl) (fun _ _ => rfl) _ _ _ _
  rw [append_of_can h, ← hbefore]
  exact (bind_modify (·.lastChild) (setParent p) (fun _ => rfl) _ _ _).trans
    (bind_modify_set (·.lastChild) (setLastChild c) (fun _ => rfl) hp n)

/-- The parent leads to its first child. -/
theorem firstChild?_append (n : ℕ) :
    (d.append p c).1.firstChild? n =
      if n = p ∧ d.lastChild? p = none then some c else d.firstChild? n := by
  have hlink : (d.append p c).1.firstChild? n = (d.linkTo p c).firstChild? n := by
    rw [append_of_can h]
    exact (bind_modify (·.firstChild) (setParent p) (fun _ => rfl) _ _ _).trans
      (bind_modify (·.firstChild) (setLastChild c) (fun _ => rfl) _ _ _)
  rw [hlink, linkTo]
  cases d.lastChild? p with
  | some last =>
    rw [if_neg fun h => nomatch h.2]
    exact bind_modify (·.firstChild) (setNextSibling c) (fun _ => rfl) _ _ _
  | none =>
    simp only [and_true]
    exact bind_modify_set (·.firstChild) (setFirstChild c) (fun _ => rfl) (canAppend_iff.1 h).1 n

/-- The last child leads to the one that comes after it. -/
theorem nextSibling?_append (hknown : ∀ last, d.lastChild? p = some last → last < d.nodes.length)
    (n : ℕ) :
    (d.append p c).1.nextSibling? n =
      if d.lastChild? p = some n then some c else d.nextSibling? n := by
  have hlink : (d.append p c).1.nextSibling? n = (d.linkTo p c).nextSibling? n := by
    rw [append_of_can h]
    exact (bind_modify (·.nextSibling) (setParent p) (fun _ => rfl) _ _ _).trans
      (bind_modify (·.nextSibling) (setLastChild c) (fun _ => rfl) _ _ _)
  rw [hlink, linkTo]
  cases hlast : d.lastChild? p with
  | some last =>
    simp only [Option.some.injEq, eq_comm (a := last)]
    exact bind_modify_set (·.nextSibling) (setNextSibling c) (fun _ => rfl) (hknown last hlast) n
  | none =>
    rw [if_neg nofun]
    exact bind_modify (·.nextSibling) (setFirstChild c) (fun _ => rfl) _ _ _

end Appended

end Document

end Enablement

import Enablement.Expr.Digest
/-!
# Sharing — built nodes with their cells

A built node can be a child of several nodes, which then share its cell. The nodes stand in a list,
each behind its children; the cells are the part that changes. A node that is asked for its hash
code answers from its cell, or asks its children in order, computes its code and keeps it.
-/

namespace Enablement

/-- A built node: its expression and the places of its children. -/
structure SharedNode where
  expr : Expr
  places : List Nat

/-- Built nodes, which may share children. The children of a node stand before it and are those of
its expression. -/
structure Sharing where
  nodes : List SharedNode := []
  places_lt : ∀ (i : Nat) (n : SharedNode), nodes[i]? = some n → ∀ j ∈ n.places, j < i := by simp
  places_expr : ∀ (i : Nat) (n : SharedNode), nodes[i]? = some n →
    n.places.map (fun j => nodes[j]?.map SharedNode.expr) = n.expr.children.map some := by simp

/-- The cells of the nodes, by place. -/
abbrev Cells := Nat → HashCell

namespace Cells

/-- Cells in which nothing is kept. -/
def empty : Cells := fun _ => {}

/-- Keeps a code at a place. -/
def keep (cells : Cells) (i : Nat) (code : UInt32) : Cells :=
  fun j => if j = i then ⟨code⟩ else cells j

end Cells

namespace Sharing

/-- The codes of several nodes, which are asked one after another. -/
def askAll (ask : Nat → Cells → UInt32 × Cells) : List Nat → Cells → List UInt32 × Cells
  | [], cells => ([], cells)
  | i :: rest, cells =>
    let (code, cells) := ask i cells
    let (codes, cells) := askAll ask rest cells
    (code :: codes, cells)

/-- The hash code of the node at a place, down to a depth. -/
def hashWithin (s : Sharing) (h : Hasher) : (depth : Nat) → (i : Nat) → Cells → UInt32 × Cells
  | 0, _, cells => (notComputed, cells)
  | depth + 1, i, cells =>
    match s.nodes[i]? with
    | none => (notComputed, cells)
    | some n =>
      if n.expr.hasCell && (cells i).stored != notComputed then ((cells i).stored, cells)
      else
        let (codes, cells) := askAll (s.hashWithin h depth) n.places cells
        let code := n.expr.codeOver h codes
        (code, if n.expr.hasCell then cells.keep i code else cells)

/-- The hash code of the node at a place. A node stands behind all nodes below it, so its place
bounds the depth. -/
def hashCode (s : Sharing) (h : Hasher) (i : Nat) : Cells → UInt32 × Cells :=
  s.hashWithin h (i + 1) i

end Sharing

end Enablement

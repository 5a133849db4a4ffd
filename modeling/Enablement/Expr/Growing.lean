import Enablement.Expr.Digest
/-!
# Growing nodes — hash codes while a node is built

A node with a list of children is built by adding them one by one. The children are finished, so
each of them answers with one hash code from then on. The node has its cell from the start, and a
code that was asked for is kept there, also when more children are added.
-/

namespace Enablement

/-- A node that children can still be added to, with its cell. -/
structure GrowingNode where
  expr : Expr
  /-- The hash codes that its children answer with, in their order. -/
  codes : List UInt32
  cell : HashCell := {}

namespace Expr

/-- Whether a node has a list of children that can be added to. -/
def takesChildren : Expr → Bool
  | .and _ => true
  | .or _ => true
  | .enablement _ => true
  | .withVariable _ _ => true
  | .resolve _ _ _ => true
  | .adapt _ _ => true
  | .iterate _ _ _ => true
  | _ => false

/-- The expression with one more child behind the others, if it has a list of them. -/
def addChild : Expr → (child : Expr) → Expr
  | .and cs, child => .and (cs ++ [child])
  | .or cs, child => .or (cs ++ [child])
  | .enablement cs, child => .enablement (cs ++ [child])
  | .withVariable x cs, child => .withVariable x (cs ++ [child])
  | .resolve x args cs, child => .resolve x args (cs ++ [child])
  | .adapt t cs, child => .adapt t (cs ++ [child])
  | .iterate o e cs, child => .iterate o e (cs ++ [child])
  | e, _ => e

/-- Adding puts the child behind the others. -/
theorem children_addChild {e : Expr} (child : Expr) (h : e.takesChildren = true) :
    (e.addChild child).children = e.children ++ [child] := by
  cases e <;> simp_all [takesChildren, addChild, children]

end Expr

namespace GrowingNode

/-- Adds a child, which answers with a code, behind the others. The cell stays as it is. -/
def add (n : GrowingNode) (child : Expr) (code : UInt32) : GrowingNode :=
  { n with expr := n.expr.addChild child, codes := n.codes ++ [code] }

/-- The hash code: the kept one, or else the computed one, which is then kept. -/
def hashCode (h : Hasher) (n : GrowingNode) : UInt32 × GrowingNode :=
  if n.expr.hasCell then
    let (code, _, cell) := n.cell.getOrCompute fun _ => n.expr.mixCodes h n.codes
    (code, { n with cell })
  else (n.expr.mixCodes h n.codes, n)

/-- A newly built node of the same kind and configuration over the same children. -/
def renewed (n : GrowingNode) : GrowingNode := { n with cell := {} }

end GrowingNode

end Enablement

import Enablement.Element.Basic
/-!
# Nodes and elements — induction over the children

What holds of a node as soon as it holds of its children holds of every node, and likewise for the
elements that own their children.
-/

namespace Enablement

namespace Node

/-- A node is larger than its children. -/
theorem sizeOf_lt_of_mem_children {c n : Node} (h : c ∈ n.children) : sizeOf c < sizeOf n := by
  cases n with
  | mk name attributes children contributor =>
    have hmem : sizeOf c < sizeOf children := List.sizeOf_lt_of_mem h
    simp only [mk.sizeOf_spec]
    omega

/-- **Induction over the children.** -/
theorem inductionOn {motive : Node → Prop} (n : Node)
    (step : ∀ n, (∀ c ∈ n.children, motive c) → motive n) : motive n :=
  step n fun c _ => inductionOn c step
termination_by sizeOf n
decreasing_by exact sizeOf_lt_of_mem_children (by assumption)

end Node

namespace Element

/-- An element is larger than its children. -/
theorem sizeOf_lt_of_mem_children {c e : Element} (h : c ∈ e.children) : sizeOf c < sizeOf e := by
  cases e with
  | mk name attributes children contributor =>
    have hmem : sizeOf c < sizeOf children := List.sizeOf_lt_of_mem h
    simp only [mk.sizeOf_spec]
    omega

/-- **Induction over the children.** -/
theorem inductionOn {motive : Element → Prop} (e : Element)
    (step : ∀ e, (∀ c ∈ e.children, motive c) → motive e) : motive e :=
  step e fun c _ => inductionOn c step
termination_by sizeOf e
decreasing_by exact sizeOf_lt_of_mem_children (by assumption)

end Element

end Enablement

import Enablement.Expr.Basic
/-!
# Expressions — children and leaves

What holds of an expression as soon as it holds of the expressions that it is over holds of every
expression. Functions on expressions go down to the same children, so one principle serves the
proofs about all of them. The leaves are what such a descent ends at: the questions, the constants,
the references and the leaves of the host.
-/

namespace Enablement.Expr

/-- An expression is larger than those it is over. -/
theorem sizeOf_lt_of_mem_children {c x : Expr} (h : c ∈ x.children) : sizeOf c < sizeOf x := by
  have hmem : ∀ {cs : List Expr}, c ∈ cs → sizeOf c < sizeOf cs := List.sizeOf_lt_of_mem
  cases x <;> simp only [children, List.mem_cons, List.not_mem_nil, or_false] at h
  case not => subst h; simp
  all_goals
    have := hmem h
    simp only [and.sizeOf_spec, or.sizeOf_spec, enablement.sizeOf_spec, withVariable.sizeOf_spec,
      resolve.sizeOf_spec, adapt.sizeOf_spec, iterate.sizeOf_spec, group.sizeOf_spec]
    omega

/-- **Induction over the children.** -/
theorem inductionOn {motive : Expr → Prop} (x : Expr)
    (step : ∀ x, (∀ c ∈ x.children, motive c) → motive x) : motive x :=
  step x fun c _ => inductionOn c step
termination_by sizeOf x
decreasing_by exact sizeOf_lt_of_mem_children (by assumption)

/-! ## Leaves -/

mutual

/-- The leaves of an expression, in order. -/
def leaves : Expr → List Expr
  | .and cs => leavesAll cs
  | .or cs => leavesAll cs
  | .not c => leaves c
  | .enablement cs => leavesAll cs
  | .withVariable _ cs => leavesAll cs
  | .resolve _ _ cs => leavesAll cs
  | .adapt _ cs => leavesAll cs
  | .iterate _ _ cs => leavesAll cs
  | .group _ cs => leavesAll cs
  | x => [x]

def leavesAll : List Expr → List Expr
  | [] => []
  | c :: cs => leaves c ++ leavesAll cs

end

theorem leavesAll_eq_flatMap (cs : List Expr) : leavesAll cs = cs.flatMap leaves := by
  induction cs with
  | nil => rfl
  | cons c cs ih => rw [leavesAll, ih, List.flatMap_cons]

/-- A leaf of a child is a leaf. -/
theorem mem_leaves_of_mem_children {c x y : Expr} (hc : c ∈ x.children) (hy : y ∈ c.leaves) :
    y ∈ x.leaves := by
  have hall : ∀ {cs : List Expr}, c ∈ cs → y ∈ leavesAll cs := by
    intro cs hcs
    rw [leavesAll_eq_flatMap]
    exact List.mem_flatMap_of_mem hcs hy
  cases x with
  | not d =>
    obtain rfl := List.mem_singleton.1 hc
    exact hy
  | and cs => exact hall hc
  | or cs => exact hall hc
  | enablement cs => exact hall hc
  | withVariable name cs => exact hall hc
  | resolve name args cs => exact hall hc
  | adapt target cs => exact hall hc
  | iterate connective ifEmpty cs => exact hall hc
  | group connective cs => exact hall hc
  | _ => cases hc

/-- A leaf is the expression itself, or a leaf of a child. -/
theorem eq_or_mem_children_of_mem_leaves {x y : Expr} (hy : y ∈ x.leaves) :
    y = x ∨ ∃ c ∈ x.children, y ∈ c.leaves := by
  have hall : ∀ {cs : List Expr}, y ∈ leavesAll cs → ∃ c ∈ cs, y ∈ c.leaves := by
    intro cs hcs
    rw [leavesAll_eq_flatMap] at hcs
    exact List.mem_flatMap.1 hcs
  cases x with
  | not d => exact .inr ⟨d, List.mem_singleton.2 rfl, hy⟩
  | and cs => exact .inr (hall hy)
  | or cs => exact .inr (hall hy)
  | enablement cs => exact .inr (hall hy)
  | withVariable name cs => exact .inr (hall hy)
  | resolve name args cs => exact .inr (hall hy)
  | adapt target cs => exact .inr (hall hy)
  | iterate connective ifEmpty cs => exact .inr (hall hy)
  | group connective cs => exact .inr (hall hy)
  | _ => exact .inl (List.mem_singleton.1 hy)

/-- The identifiers of the references in an expression. -/
def references (x : Expr) : List String :=
  x.leaves.filterMap fun y =>
    match y with
    | .reference id _ => some id
    | _ => none

theorem mem_references_of_mem_leaves {x : Expr} {id : String} {linked : Bool}
    (h : .reference id linked ∈ x.leaves) : id ∈ x.references :=
  List.mem_filterMap.2 ⟨_, h, rfl⟩

/-- A reference is a reference of itself. -/
theorem mem_references_reference (id : String) (linked : Bool) :
    id ∈ (Expr.reference id linked).references :=
  mem_references_of_mem_leaves (List.mem_singleton.2 rfl)

/-- A reference in a child is a reference. -/
theorem mem_references_of_mem_children {c x : Expr} {id : String} (hc : c ∈ x.children)
    (hid : id ∈ c.references) : id ∈ x.references := by
  obtain ⟨y, hy, hyid⟩ := List.mem_filterMap.1 hid
  exact List.mem_filterMap.2 ⟨y, mem_leaves_of_mem_children hc hy, hyid⟩

/-- Whether all leaves say what they look at: there are none of the host, and references are
linked. -/
def accountable (x : Expr) : Bool :=
  x.leaves.all fun y =>
    match y with
    | .fixed _ _ => false
    | .reference _ linked => linked
    | _ => true

/-- The leaves of an accountable expression are accountable: they are not of the host, and linked if
they are references. -/
theorem ne_fixed_of_accountable {x : Expr} (hx : x.accountable = true) (label : Option String)
    (outcome : String) : .fixed label outcome ∉ x.leaves := by
  intro hy
  have hleaf := List.all_eq_true.1 hx _ hy
  cases hleaf

theorem linked_of_accountable {x : Expr} (hx : x.accountable = true) {id : String} {linked : Bool}
    (hy : .reference id linked ∈ x.leaves) : linked = true :=
  List.all_eq_true.1 hx _ hy

/-- The children of an accountable expression are accountable. -/
theorem accountable_of_mem_children {c x : Expr} (hc : c ∈ x.children)
    (hx : x.accountable = true) : c.accountable = true := by
  rw [accountable, List.all_eq_true] at hx ⊢
  exact fun y hy => hx y (mem_leaves_of_mem_children hc hy)

end Enablement.Expr

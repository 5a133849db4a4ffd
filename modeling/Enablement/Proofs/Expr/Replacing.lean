import Enablement.Proofs.Expr.Linkage
/-!
# Expressions — parts and their places

A part of an expression has a place: the way down to it from the root, as numbers of children.
What stands at a place can be replaced. Replaced by an equal part, the whole stays equal, and its
references stay linked as they were if those of the part do.
-/

namespace Enablement.Expr

variable {a b x : Expr} {path : List Nat} {cs ds : List Expr}

/-- The expression over other children; a negation has one. -/
def withChildren : Expr → (children : List Expr) → Expr
  | .and _, cs => .and cs
  | .or _, cs => .or cs
  | .not c, cs => .not (cs.headD c)
  | .enablement _, cs => .enablement cs
  | .withVariable name _, cs => .withVariable name cs
  | .resolve name args _, cs => .resolve name args cs
  | .adapt target _, cs => .adapt target cs
  | .iterate connective ifEmpty _, cs => .iterate connective ifEmpty cs
  | .group connective _, cs => .group connective cs
  | x, _ => x

/-- The part at a place. -/
def part? : (path : List Nat) → Expr → Option Expr
  | [], x => some x
  | i :: path, x => x.children[i]?.bind (part? path)

/-- The expression with another part at a place; where there is none, nothing changes. -/
def replaceAt (x : Expr) : (path : List Nat) → (part : Expr) → Expr
  | [], b => b
  | i :: path, b => x.withChildren (x.children.modify i fun c => c.replaceAt path b)

/-- What is below the first step of a way. -/
theorem part?_cons_eq_some {i : Nat} :
    x.part? (i :: path) = some a ↔ ∃ c, x.children[i]? = some c ∧ c.part? path = some a :=
  Option.bind_eq_some_iff

theorem withChildren_children (x : Expr) : x.withChildren x.children = x := by
  cases x <;> rfl

/-! ## Equality -/

theorem same_withChildren (x : Expr) (h : sameAll cs ds = true) :
    same (x.withChildren cs) (x.withChildren ds) = true := by
  cases x with
  | not c =>
    cases sameAll_iff.1 h with
    | nil => exact c.same_self
    | cons hcd _ => exact hcd
  | and _ | or _ | enablement _ => exact h
  | withVariable name _ => exact Bool.and_eq_true_iff.2 ⟨beq_self_eq_true name, h⟩
  | adapt target _ => exact Bool.and_eq_true_iff.2 ⟨beq_self_eq_true target, h⟩
  | group connective _ => exact Bool.and_eq_true_iff.2 ⟨beq_self_eq_true connective, h⟩
  | resolve name args _ =>
    exact Bool.and_eq_true_iff.2
      ⟨Bool.and_eq_true_iff.2 ⟨beq_self_eq_true name, Value.sameItems_self args⟩, h⟩
  | iterate connective ifEmpty _ =>
    exact Bool.and_eq_true_iff.2
      ⟨Bool.and_eq_true_iff.2 ⟨beq_self_eq_true connective, beq_self_eq_true ifEmpty⟩, h⟩
  | count _ | equals _ | systemTest _ _ | test _ | reference _ _ | instanceOf _ | constant _
  | fixed _ _ => exact same_self _

theorem sameAll_modify {i : Nat} {f : Expr → Expr}
    (h : ∀ c, cs[i]? = some c → same c (f c) = true) : sameAll cs (cs.modify i f) = true := by
  induction cs generalizing i with
  | nil => cases i <;> rfl
  | cons c cs ih =>
    cases i with
    | zero =>
      rw [List.modify_zero_cons]
      exact Bool.and_eq_true_iff.2 ⟨h c rfl, sameAll_self fun d _ => d.same_self⟩
    | succ i =>
      rw [List.modify_succ_cons]
      exact Bool.and_eq_true_iff.2 ⟨c.same_self, ih h⟩

/-- **An expression stays equal when a part is replaced by an equal one.** -/
theorem same_replaceAt (h : same a b = true) (hx : x.part? path = some a) :
    same x (x.replaceAt path b) = true := by
  induction path generalizing x with
  | nil =>
    cases hx
    exact h
  | cons i path ih =>
    obtain ⟨c, hc, hpart⟩ := part?_cons_eq_some.1 hx
    -- one child is replaced by one equal to it, the others stay
    have hall : sameAll x.children (x.children.modify i fun c => c.replaceAt path b) = true := by
      refine sameAll_modify fun d hd => ?_
      cases hc.symm.trans hd
      exact ih hpart
    have hsame := same_withChildren x hall
    rwa [withChildren_children] at hsame

/-! ## Links -/

theorem link?_withChildren (x : Expr) : (x.withChildren cs).link? = x.link? := by
  cases x <;> rfl

/-- Over as many children as before, the expression is over those. -/
theorem children_withChildren (x : Expr) (hlength : cs.length = x.children.length) :
    (x.withChildren cs).children = cs := by
  cases x with
  | not c =>
    obtain ⟨d, rfl⟩ := List.length_eq_one_iff.1 hlength
    rfl
  | and _ | or _ | enablement _ | withVariable _ _ | resolve _ _ _ | adapt _ _ | iterate _ _ _
  | group _ _ => rfl
  | count _ | equals _ | systemTest _ _ | test _ | reference _ _ | instanceOf _ | constant _
  | fixed _ _ => exact (List.length_eq_zero_iff.1 hlength).symm

theorem flatMap_linkage_modify {i : Nat} {f : Expr → Expr}
    (h : ∀ c, cs[i]? = some c → (f c).linkage = c.linkage) :
    (cs.modify i f).flatMap linkage = cs.flatMap linkage := by
  induction cs generalizing i with
  | nil => cases i <;> rfl
  | cons c cs ih =>
    cases i with
    | zero => rw [List.modify_zero_cons, List.flatMap_cons, List.flatMap_cons, h c rfl]
    | succ i => rw [List.modify_succ_cons, List.flatMap_cons, List.flatMap_cons, ih h]

/-- **The references stay linked as they were** when a part is replaced by one that is linked
alike. -/
theorem linkage_replaceAt (h : a.linkage = b.linkage) (hx : x.part? path = some a) :
    (x.replaceAt path b).linkage = x.linkage := by
  induction path generalizing x with
  | nil =>
    cases hx
    exact h.symm
  | cons i path ih =>
    obtain ⟨c, hc, hpart⟩ := part?_cons_eq_some.1 hx
    rw [replaceAt, linkage_eq, link?_withChildren,
      children_withChildren x (List.length_modify ..), flatMap_linkage_modify, ← linkage_eq]
    intro d hd
    cases hc.symm.trans hd
    exact ih hpart

end Enablement.Expr

import Enablement.Convert.Basic
import Enablement.Proofs.Element.Nodes
import Enablement.Proofs.Results
/-!
# How a conversion ends

An element is converted by following the plan for it with what becomes of its children
(`convert_eq_follow`), and a list of elements is converted one after another, up to the first that
has a fault (`convertAll_eq_ok_iff`).
-/

namespace Enablement

theorem Plan.onlyOf_of_length_ne {rs : List (Except Fault Expr)} (h : rs.length ≠ 1) :
    onlyOf rs = .error (.missingExpression (.notOneChild rs.length)) := by
  match rs, h with
  | [], _ => rfl
  | [_], h => exact absurd rfl h
  | _ :: _ :: _, _ => rfl

namespace Converter

variable {c : Converter}

theorem convertEach_eq_map (c : Converter) (ns : List Node) :
    c.convertEach ns = ns.map c.convert := by
  induction ns with
  | nil => rw [convertEach, List.map_nil]
  | cons n ns ih => rw [convertEach, ih, List.map_cons, convert]

/-- **An element is converted as planned**, with what becomes of its children; without a plan that
is a fault. -/
theorem convert_eq_follow (c : Converter) (n : Node) :
    c.convert n = match c.plan? n with
      | none => .error (.missingExpression (.unhandled n.name))
      | some plan => plan.follow (n.children.map c.convert) := by
  cases n with
  | mk name attributes children contributor =>
    rw [convert, convert?, convertEach_eq_map]
    cases c.plan? (.mk name attributes children contributor) with
    | none => rfl
    | some plan =>
      rw [Node.children]
      dsimp only
      cases plan.follow (children.map c.convert) <;> rfl

/-- An element is converted as planned, kind by kind of the plans. -/
theorem convert_eq (c : Converter) (n : Node) :
    c.convert n = match c.plan? n with
      | none => .error (.missingExpression (.unhandled n.name))
      | some (.leaf result) => result
      | some (.only build) => (c.convertOnly n.children).map build
      | some (.over build) => (c.convertAll n.children).map build
      | some (.child place next) => (Plan.child place next).follow (n.children.map c.convert) := by
  rw [convert_eq_follow, convertOnly, convertAll, convertEach_eq_map]
  cases c.plan? n with
  | none => rfl
  | some plan => cases plan <;> rfl

theorem convertAll_nil (c : Converter) : c.convertAll [] = .ok [] := by
  rw [convertAll, convertEach]
  rfl

theorem convertAll_eq_mapM (c : Converter) (ns : List Node) :
    c.convertAll ns = ns.mapM c.convert := by
  rw [convertAll, convertEach_eq_map, List.mapM_map]
  rfl

theorem convertAll_cons (c : Converter) (n : Node) (ns : List Node) :
    c.convertAll (n :: ns) = match c.convert n with
      | .error f => .error f
      | .ok x => (c.convertAll ns).map (x :: ·) := by
  rw [convertAll_eq_mapM, convertAll_eq_mapM]
  cases hn : c.convert n with
  | error f => exact mapM_cons_of_error hn ns
  | ok x => exact mapM_cons_of_ok hn ns

/-- The only child is converted for itself. -/
theorem convertOnly_singleton (c : Converter) (n : Node) : c.convertOnly [n] = c.convert n := by
  rw [convertOnly, convertEach_eq_map]
  rfl

theorem convertOnly_of_length_ne {ns : List Node} (h : ns.length ≠ 1) (c : Converter) :
    c.convertOnly ns = .error (.missingExpression (.notOneChild ns.length)) := by
  rw [convertOnly, convertEach_eq_map, Plan.onlyOf_of_length_ne (by rwa [List.length_map]),
    List.length_map]

/-- A list is converted if all its elements are. -/
theorem convertAll_eq_ok_iff {ns : List Node} {xs : List Expr} :
    c.convertAll ns = .ok xs ↔ List.Forall₂ (fun n x => c.convert n = .ok x) ns xs := by
  rw [convertAll_eq_mapM, mapM_eq_ok_iff]

end Converter

end Enablement

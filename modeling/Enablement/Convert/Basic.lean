import Enablement.Element.Attribute
import Enablement.Expr.Basic
/-!
# Conversion — from elements to expressions

Handlers are asked in order what to make of an element. The first that knows it gives a plan: a
finished result, or an expression to build over the converted children, all of them or one at a
time. Children are converted by the same handlers, so a plan never needs to call back: it is
followed with what becomes of each child, and conversion is a recursion on the tree.
-/

namespace Enablement

/-- What a handler makes of an element. A fault of a child that a plan asks for is the fault of the
element. -/
inductive Plan where
  /-- A result that does not depend on the children. -/
  | leaf (result : Except Fault Expr)
  /-- An expression over the only child. -/
  | only (build : Expr → Expr)
  /-- An expression over all children. -/
  | over (build : List Expr → Expr)
  /-- Asks for the child at a place, if there is one, and goes on with its expression: to ask for
  more children, or to end with a result. -/
  | child (place : Nat) (next : Option Expr → Plan)

namespace Plan

/-- What becomes of the only child. -/
def onlyOf : List (Except Fault Expr) → Except Fault Expr
  | [r] => r
  | rs => .error (.missingExpression (.notOneChild rs.length))

/-- The result of a plan, from what becomes of each child. -/
def follow (rs : List (Except Fault Expr)) : Plan → Except Fault Expr
  | .leaf result => result
  | .only build => (onlyOf rs).map build
  | .over build => (rs.mapM id).map build
  | .child place next =>
    match rs[place]? with
    | none => (next none).follow rs
    | some (.error f) => .error f
    | some (.ok e) => (next (some e)).follow rs

end Plan

/-- Knows how to make expressions of some elements. -/
structure Handler where
  /-- The plan for an element, or none if the handler does not know it. The flag tells whether
  references are to be linked to a registry. -/
  plan? : (linked : Bool) → Node → Option Plan

/-- A list of handlers, asked in order. -/
structure Converter where
  handlers : List Handler
  linked : Bool := false

namespace Converter

/-- The plan of the first handler that knows the element. -/
def plan? (c : Converter) (n : Node) : Option Plan :=
  c.handlers.findSome? (fun h => h.plan? c.linked n)

/-- The expression of an element that has to be known; one that no handler knows is a fault. -/
def known (n : Node) : Except Fault (Option Expr) → Except Fault Expr
  | .error f => .error f
  | .ok none => .error (.missingExpression (.unhandled n.name))
  | .ok (some e) => .ok e

mutual

/-- The expression of an element, or none if no handler knows it. -/
def convert? (c : Converter) : Node → Except Fault (Option Expr)
  | .mk name attributes children contributor =>
    match c.plan? (.mk name attributes children contributor) with
    | none => .ok none
    | some plan => (plan.follow (c.convertEach children)).map some

/-- What becomes of each of a list of elements. -/
def convertEach (c : Converter) : List Node → List (Except Fault Expr)
  | [] => []
  | n :: ns => known n (c.convert? n) :: c.convertEach ns

end

/-- The expressions of all elements, or the first fault. -/
def convertAll (c : Converter) (ns : List Node) : Except Fault (List Expr) :=
  (c.convertEach ns).mapM id

/-- The expression of the only element of a list. -/
def convertOnly (c : Converter) (ns : List Node) : Except Fault Expr :=
  Plan.onlyOf (c.convertEach ns)

/-- The expression of an element; one that no handler knows is a fault. -/
def convert (c : Converter) (n : Node) : Except Fault Expr := known n (c.convert? n)

/-- The element that made a conversion end because no handler knew it, if that is how it ended. -/
def unhandled? (n : Node) : Except Fault (Option Expr) → Option String
  | .ok none => some n.name
  | .error (.missingExpression (.unhandled name)) => some name
  | _ => none

end Converter

end Enablement

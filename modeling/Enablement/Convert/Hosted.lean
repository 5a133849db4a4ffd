import Enablement.Convert.Basic
/-!
# Handlers of a host

Ready-made handlers that a host can put before or after the standard one: leaves with a fixed
outcome and constants, groups, a handler that shadows a standard element, and one that fails.
-/

namespace Enablement.Hosted

/-- The leaf of a `fixed` element. Whether its outcome is the name of one is left to evaluation. -/
def readFixed (n : Node) : Except Fault Expr :=
  (n.require "outcome").map (.fixed (n.attribute? "id"))

/-- Leaves with a fixed outcome, and the two constants. -/
def fixed : Handler where
  plan? _ n :=
    match n.name with
    | "fixed" => some (.leaf (readFixed n))
    | "true" => some (.leaf (.ok (.constant true)))
    | "false" => some (.leaf (.ok (.constant false)))
    | _ => none

/-- Groups: `all` is a conjunction and `any` a disjunction. -/
def group : Handler where
  plan? _ n :=
    match n.name with
    | "all" => some (.over (.group .and))
    | "any" => some (.over (.group .or))
    | _ => none

/-- Takes every conjunction for a constant falsity. -/
def shadow : Handler where
  plan? _ n := if n.name = "and" then some (.leaf (.ok (.constant false))) else none

/-- Fails on the element `boom`. -/
def failing : Handler where
  plan? _ n :=
    if n.name = "boom" then some (.leaf (.error (.missingExpression (.stated "boom")))) else none

end Enablement.Hosted

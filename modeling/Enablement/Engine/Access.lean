import Enablement.Engine.Conversion
import Enablement.Expr.Access
/-!
# What expressions look at

The access record of an expression is collected by adding to a record that is passed along. Linked
references add what their definition looks at, which may convert the definition; references that are
not linked, unknown definitions and those that cannot be converted add nothing.
-/

namespace Enablement

/-- Adds to an access record, with the engine at hand for definitions. -/
abbrev Collector := Access → Engine → Access × Engine

namespace Collector

/-- Adds nothing. -/
def nothing : Collector := fun a e => (a, e)

/-- Adds by a function of the record. -/
def mark (f : Access → Access) : Collector := fun a e => (f a, e)

/-- Adds first by one and then by the other. -/
def andThen (x y : Collector) : Collector := fun a e =>
  let (a, e) := x a e
  y a e

/-- Collects from nothing what a part looks at that is asked about a named variable, and adds it
with the default variable replaced. -/
def rebound (name : String) (inner : Collector) : Collector := fun a e =>
  let (b, e) := inner {} e
  (a.mergeRebound name b, e)

end Collector

namespace Expr

mutual

/-- Adds what an expression looks at, given what its linked references do. -/
def collector (link : String → Collector) : Expr → Collector
  | .and cs => collectorAll link cs
  | .or cs => collectorAll link cs
  | .not c => collector link c
  | .enablement cs => collectorAll link cs
  | .withVariable x cs => .rebound x (collectorAll link cs)
  | .resolve x _ cs => .rebound x (collectorAll link cs)
  | .adapt _ cs => .andThen (.mark .markDefault) (collectorAll link cs)
  | .iterate _ _ cs => .andThen (.mark .markDefault) (collectorAll link cs)
  | .count _ => .mark .markDefault
  | .equals _ => .mark .markDefault
  | .systemTest _ _ => .mark .markSystem
  | .test q => .mark (fun a => a.markDefault.addProperty q.qualified)
  | .reference id true => link id
  | .reference _ false => .nothing
  | .instanceOf _ => .mark .markDefault
  | .constant _ => .nothing
  | .fixed label outcome => .mark (·.addMisbehaving (typeName (.fixed label outcome)))
  | .group _ cs => collectorAll link cs

def collectorAll (link : String → Collector) : List Expr → Collector
  | [] => .nothing
  | c :: cs => .andThen (collector link c) (collectorAll link cs)

end

/-- What an expression looks at when no registry is at hand. -/
def access (x : Expr) : Access := (x.collector (fun _ => .nothing) {} {}).1

end Expr

namespace Engine

/-- What a linked reference adds when definitions may be entered to a depth. -/
def collectWithin : Nat → String → Collector
  | 0, _ => .nothing
  | depth + 1, id => fun a e =>
    match definition id e with
    | (.ok x, e) => x.collector (collectWithin depth) a e
    | (.error _, e) => (a, e)

/-- Adds what an expression looks at. -/
def collect (x : Expr) : Collector := fun a e =>
  x.collector (collectWithin e.referenceDepth) a e

/-- What an expression looks at. -/
def access (x : Expr) : Engine → Access × Engine := collect x {}

end Engine

end Enablement

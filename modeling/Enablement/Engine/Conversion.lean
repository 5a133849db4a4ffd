import Enablement.Engine.Basic
/-!
# Conversions and definitions in an engine

Converting leaves a log line when it ends at an element that no handler knows. Definitions are
converted by the engine's own handlers when they are first asked for.
-/

namespace Enablement.Engine

/-- Leaves the log line of a conversion. -/
def noteConversion (n : Node) (r : Except Fault (Option Expr)) (e : Engine) : Engine :=
  match Converter.unhandled? n r with
  | some element => e.note (.unhandled element)
  | none => e

/-- Converts an element by the engine's handlers. -/
def convert (linked : Bool) (n : Node) : Act Expr := fun e =>
  let c := { e.converter with linked }
  (c.convert n, noteConversion n (c.convert? n) e)

/-- Converts an element by the engine's handlers, if one knows it. -/
def convert? (n : Node) : Act (Option Expr) := fun e =>
  (e.converter.convert? n, noteConversion n (e.converter.convert? n) e)

/-- The element that is converted when a definition is asked for, if one is. -/
def pending? (id : String) (e : Engine) : Option Node :=
  match e.definitions.expressions.find? id, e.definitions.elements.find? id with
  | none, some element => element.children.head?.map Element.toNode
  | _, _ => none

/-- The expression of a definition. -/
def definition (id : String) : Act Expr := fun e =>
  let (r, definitions) := e.definitions.expression e.converter id
  let noted :=
    match pending? id e with
    | some n => noteConversion n (e.converter.convert? n) e
    | none => e
  (r, { noted with definitions })

/-- How deep references can lead before they come to a definition again. -/
def referenceDepth (e : Engine) : Nat :=
  e.definitions.elements.size + e.definitions.expressions.size + 1

/-- How often definitions may be entered again on the way to an outcome. A definition that is asked
about a collection may refer to itself for the elements, and ends where the nesting ends. -/
def maxReentries : Nat := 1000000

end Enablement.Engine

import Enablement.Convert.Basic
/-!
# The standard elements

The fourteen elements of the condition language. Each reads its own attributes, in the order given
here, before its children are looked at.
-/

namespace Enablement

namespace Plan

/-- A plan whose expression over the children needs attributes that may be faulty. -/
def overWith {α : Type} (attributes : Except Fault α) (build : α → List Expr → Expr) : Plan :=
  match attributes with
  | .ok a => .over (build a)
  | .error f => .leaf (.error f)

end Plan

namespace Standard

/-- The parts of a text before and after its last point. -/
def splitAtLastPoint? (text : String) : Option (String × String) :=
  let r := text.toList.reverse
  match r.dropWhile (· != '.') with
  | [] => none
  | _ :: before =>
    some (String.ofList before.reverse, String.ofList (r.takeWhile (· != '.')).reverse)

/-- The question of a test element. -/
def readTest (n : Node) : Except Fault PropertyTest := do
  let qualified ← n.require "property"
  match splitAtLastPoint? qualified with
  | none => throw (.noNamespace qualified)
  | some (namespaceName, property) =>
    let args ← n.arguments "args"
    let expected ← n.literal? "value"
    return { namespaceName, property, args, expected, force := n.isTrue "forcePluginActivation" }

/-- The variable and the arguments of a resolve element. -/
def readResolve (n : Node) : Except Fault (String × List Value) := do
  let variableName ← n.require "variable"
  return (variableName, ← n.arguments "args")

/-- How an iterate element combines, and its outcome for no elements. -/
def readIterate (n : Node) : Except Fault (Connective × Option Bool) := do
  let connective ← match n.attribute? "operator" with
    | none => pure Connective.and
    | some value => do
      checkAttributeValue "operator" value ["and", "or"]
      pure (if value = "and" then Connective.and else Connective.or)
  return (connective, (n.attribute? "ifEmpty").map (equalIgnoringCase · "true"))

/-- The property and the value of a system test. -/
def readSystemTest (n : Node) : Except Fault (String × String) := do
  let property ← n.require "property"
  return (property, ← n.require "value")

/-- The value that an equals element compares with. -/
def readEquals (n : Node) : Except Fault Value := do
  let text ← n.require "value"
  Argument.convert text.toList

/-- What the standard language makes of an element. -/
def plan? (linked : Bool) (n : Node) : Option Plan :=
  match n.name with
  | "and" => some (.over .and)
  | "or" => some (.over .or)
  | "not" => some (.only .not)
  | "enablement" => some (.over .enablement)
  | "with" => some (.overWith (n.require "variable") .withVariable)
  | "resolve" => some (.overWith (readResolve n) (fun a => .resolve a.1 a.2))
  | "adapt" => some (.overWith (n.require "type") .adapt)
  | "iterate" => some (.overWith (readIterate n) (fun a => .iterate a.1 a.2))
  | "count" => some (.leaf (.ok (.count (.ofString ((n.attribute? "value").getD "*")))))
  | "equals" => some (.leaf ((readEquals n).map .equals))
  | "systemTest" => some (.leaf ((readSystemTest n).map (fun a => .systemTest a.1 a.2)))
  | "test" => some (.leaf ((readTest n).map .test))
  | "reference" => some (.leaf ((n.require "definitionId").map (.reference · linked)))
  | "instanceof" => some (.leaf ((n.require "value").map .instanceOf))
  | _ => none

/-- The handler of the standard language. -/
def handler : Handler := ⟨plan?⟩

/-- The converter that knows the standard language only and no registry. -/
def converter : Converter := { handlers := [handler] }

end Standard

end Enablement

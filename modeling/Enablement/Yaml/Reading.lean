import Enablement.Element.Reading
import Enablement.Options
import Enablement.Yaml.Plain
import Enablement.Yaml.Tree
/-!
# Elements and options in indented documents

The same members as in compact documents, with two differences: scalars are read as text where text
is wanted, and a missing value stands for an empty collection.
-/

namespace Enablement

namespace Element

/-- The text of a written attribute value. -/
def scalarTextOfYaml? : Yaml → Option String
  | .scalar false text => some text
  | .scalar true text =>
    match Yaml.meant text with
    | .nothing => none
    | .bool b => some (if b then "true" else "false")
    | .int n => scalarText? (.num (.int n))
    | .tooLarge => none
    | .float x => scalarText? (.num (.float x))
    | .text => some text
  | _ => none

/-- The attributes of a map. -/
def attributesOfYaml? (y : Yaml) : Option (NameMap String) := do
  let entries ← y.entries?
  let pairs ← entries.mapM fun e => do
    return (← e.1.text?, ← scalarTextOfYaml? e.2)
  return NameMap.ofList pairs

/-- A contributor, which may stand for nothing. -/
def contributorOfYaml? : Yaml → Option (Option String)
  | .scalar plain text => some (if plain && Yaml.isNothing text then none else some text)
  | _ => none

mutual

/-- The element of a document. -/
def ofYaml? : Yaml → Option Element
  | .map entries => (draftOfYaml? {} entries).bind Draft.finish?
  | _ => none

def childrenOfYaml? : Yaml → Option (List Element)
  | .seq items => itemsOfYaml? items
  | .scalar true "" => some []
  | _ => none

def itemsOfYaml? : List Yaml → Option (List Element)
  | [] => some []
  | y :: rest => do
    let e ← ofYaml? y
    return e :: (← itemsOfYaml? rest)

/-- Reads entries in order; one that is unknown, repeated or malformed is refused. -/
def draftOfYaml? (d : Draft) : List (Yaml × Yaml) → Option Draft
  | [] => some d
  | (key, value) :: rest =>
    match key.text? with
    | some "name" =>
      match d.name, value.text? with
      | none, some name => draftOfYaml? { d with name := some name } rest
      | _, _ => none
    | some "attributes" =>
      match d.attributes, attributesOfYaml? value with
      | none, some attributes => draftOfYaml? { d with attributes := some attributes } rest
      | _, _ => none
    | some "children" =>
      match d.children, childrenOfYaml? value with
      | none, some children => draftOfYaml? { d with children := some children } rest
      | _, _ => none
    | some "contributor" =>
      match d.contributor, contributorOfYaml? value with
      | none, some contributor => draftOfYaml? { d with contributor := some contributor } rest
      | _, _ => none
    | _ => none

end

/-- The element that a text is an indented document of. -/
def readYaml? (text : String) : Option Element := (Yaml.read? text).bind ofYaml?

/-- Where an element is written. -/
inductive Source where
  | json (text : String)
  | yaml (text : String)
  | document (j : Json)

/-- The element that is written there. -/
def Source.read : Source → Except Fault Element
  | .json text => (read? text).elim (.error .invalidDocument) .ok
  | .yaml text => (readYaml? text).elim (.error .invalidDocument) .ok
  | .document j => (ofJson? j).elim (.error .invalidDocument) .ok

end Element

namespace Options

/-- The capacity that a plain scalar gives. -/
def capacityOfYaml? : Yaml → Option Nat
  | .scalar true text =>
    ((Yaml.unsigned? text.toList).filter (fun n : Int => n < (pow2 64 : Int))).map Int.toNat
  | _ => none

def flagOfYaml? : Yaml → Option Bool
  | .scalar true text => Yaml.bool? text
  | _ => none

/-- Reads entries in order; one that is unknown, repeated or malformed is refused. -/
def draftOfYaml? (d : Draft) : List (Yaml × Yaml) → Option Draft
  | [] => some d
  | (key, value) :: rest =>
    if key.text? = some capacityName then
      match d.capacity, capacityOfYaml? value with
      | none, some n => draftOfYaml? { d with capacity := some n } rest
      | _, _ => none
    else if key.text? = some traceResolvingName then
      match d.traceResolving, flagOfYaml? value with
      | none, some b => draftOfYaml? { d with traceResolving := some b } rest
      | _, _ => none
    else if key.text? = some traceEvaluationName then
      match d.traceEvaluation, flagOfYaml? value with
      | none, some b => draftOfYaml? { d with traceEvaluation := some b } rest
      | _, _ => none
    else none

/-- The valid options that a text is an indented document of. -/
def readYaml (text : String) : Except Fault Options :=
  accept (do
    let entries ← (← Yaml.read? text).entries?
    return (← draftOfYaml? {} entries).finish)

end Options

end Enablement

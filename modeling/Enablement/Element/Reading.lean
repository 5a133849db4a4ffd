import Enablement.Element.Basic
import Enablement.Json.Printer
import Enablement.Json.Reader
/-!
# Elements as documents

An element is an object with the members `name`, `attributes`, `children` and `contributor`, of
which only the name is required; unknown and repeated members are refused. Attribute values may be
written as booleans or numbers and are read as their text. The parts may also be listed in an array
in this order. Written elements leave out what is empty.
-/

namespace Enablement.Element

/-- The text of a written attribute value. -/
def scalarText? : Json → Option String
  | .str s => some s
  | .bool b => some (if b then "true" else "false")
  | .num (.int n) =>
    some (String.ofList
      (if -(pow2 63 : Int) ≤ n && n < pow2 63 then Digits.intDigits n
       else (Binary64.ofInt n).plainText))
  | .num (.float x) => some (String.ofList x.plainText)
  | _ => none

/-- The attributes that an object holds; of a repeated one the last value stands. -/
def attributesOf? : Json → Option (NameMap String)
  | .obj members =>
    (members.mapM (fun e => (scalarText? e.2).map (e.1, ·))).map NameMap.ofList
  | _ => none

/-- A contributor, which may be null. -/
def contributorOf? : Json → Option (Option String)
  | .null => some none
  | .str s => some (some s)
  | _ => none

/-- The members of an element that have been read so far. -/
structure Draft where
  name : Option String := none
  attributes : Option (NameMap String) := none
  children : Option (List Element) := none
  contributor : Option (Option String) := none

/-- The element of the members that were read; all but the name may be missing. -/
def Draft.finish? (d : Draft) : Option Element :=
  d.name.map fun name =>
    .mk name (d.attributes.getD {}) (d.children.getD []) (d.contributor.getD none)

/-- The text of a string. -/
def stringOf? : Json → Option String
  | .str s => some s
  | _ => none

mutual

/-- The element of a document. -/
def ofJson? : Json → Option Element
  | .obj members => (draftOf? {} members).bind Draft.finish?
  | .arr [name] => (stringOf? name).map (.mk · {} [] none)
  | .arr [name, attributes] => do
    return .mk (← stringOf? name) (← attributesOf? attributes) [] none
  | .arr [name, attributes, children] => do
    return .mk (← stringOf? name) (← attributesOf? attributes) (← childrenOf? children) none
  | .arr [name, attributes, children, contributor] => do
    return .mk (← stringOf? name) (← attributesOf? attributes) (← childrenOf? children)
      (← contributorOf? contributor)
  | _ => none

/-- The elements that an array holds. -/
def childrenOf? : Json → Option (List Element)
  | .arr items => ofItems? items
  | _ => none

def ofItems? : List Json → Option (List Element)
  | [] => some []
  | j :: rest => do
    let e ← ofJson? j
    return e :: (← ofItems? rest)

/-- Reads members in order; one that is unknown, repeated or malformed is refused. -/
def draftOf? (d : Draft) : List (String × Json) → Option Draft
  | [] => some d
  | (key, value) :: rest =>
    if key = "name" then
      match d.name, stringOf? value with
      | none, some name => draftOf? { d with name := some name } rest
      | _, _ => none
    else if key = "attributes" then
      match d.attributes, attributesOf? value with
      | none, some attributes => draftOf? { d with attributes := some attributes } rest
      | _, _ => none
    else if key = "children" then
      match d.children, childrenOf? value with
      | none, some children => draftOf? { d with children := some children } rest
      | _, _ => none
    else if key = "contributor" then
      match d.contributor, contributorOf? value with
      | none, some contributor => draftOf? { d with contributor := some contributor } rest
      | _, _ => none
    else none

end

/-- The element that a text is a document of. -/
def read? (text : String) : Option Element := (Json.read? text).bind ofJson?

mutual

/-- The element as a document, without its empty parts. -/
def toJson : Element → Json
  | .mk name attributes children contributor =>
    .obj (("name", .str name) ::
      ((if attributes.isEmpty then []
        else [("attributes", .obj (attributes.entries.map (fun e => (e.1, .str e.2))))]) ++
      ((if children.isEmpty then [] else [("children", .arr (allToJson children))]) ++
      (match contributor with
        | some c => [("contributor", .str c)]
        | none => []))))

def allToJson : List Element → List Json
  | [] => []
  | e :: es => toJson e :: allToJson es

end

end Enablement.Element

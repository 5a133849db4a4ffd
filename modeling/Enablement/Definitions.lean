import Enablement.Convert.Basic
/-!
# Definitions — named expressions

A definition is registered as an element, whose first child is converted when the definition is
first asked for, or as a finished expression. What has been converted is kept until the definition
changes.
-/

namespace Enablement

/-- The registered definitions. -/
structure Definitions where
  elements : NameMap Element := {}
  /-- Finished and converted expressions. -/
  expressions : NameMap Expr := {}

namespace Definitions

/-- The name of an element that is a definition. -/
def tag : String := "definition"

/-- Registers an element, replacing what was registered under the name. -/
def addElement (d : Definitions) (id : String) (e : Element) : Definitions where
  elements := d.elements.insert id e
  expressions := d.expressions.erase id

/-- Registers an element under its own identifier, which must not be blank. -/
def addDefinition (d : Definitions) (e : Element) : Except Fault Definitions :=
  match e.attributes.find? "id" with
  | some id =>
    if Blank.trim id.toList = [] then .error (.missingAttribute tag "id")
    else .ok (d.addElement id e)
  | none => .error (.missingAttribute tag "id")

/-- Registers a finished expression, replacing what was registered under the name. -/
def define (d : Definitions) (id : String) (e : Expr) : Definitions where
  elements := d.elements.erase id
  expressions := d.expressions.insert id e

/-- Converts the first child of an element that defines `id`. -/
def convertElement (c : Converter) (id : String) (e : Element) : Except Fault Expr :=
  match e.children with
  | [] => .error (.missingExpression (.emptyDefinition id))
  | child :: _ => c.convert child.toNode

/-- The expression of a definition, which is converted if it has not been before. -/
def expression (d : Definitions) (c : Converter) (id : String) : Except Fault Expr × Definitions :=
  match d.expressions.find? id with
  | some e => (.ok e, d)
  | none =>
    match d.elements.find? id with
    | none => (.error (.definitionNotFound id), d)
    | some element =>
      match convertElement c id element with
      | .ok e => (.ok e, { d with expressions := d.expressions.insert id e })
      | .error f => (.error f, d)

def contains (d : Definitions) (id : String) : Bool :=
  d.elements.contains id || d.expressions.contains id

/-- Removes a definition, and tells whether there was one. -/
def remove (d : Definitions) (id : String) : Definitions × Bool :=
  ({ elements := d.elements.erase id, expressions := d.expressions.erase id }, d.contains id)

/-- Removes all definitions. -/
def clear (_ : Definitions) : Definitions := {}

/-- The names of all definitions, in order. -/
def ids (d : Definitions) : List String :=
  ((NameSet.ofList d.elements.names).insertAll d.expressions.names).toList

def size (d : Definitions) : Nat := d.ids.length

def isEmpty (d : Definitions) : Bool := d.elements.isEmpty && d.expressions.isEmpty

end Definitions

end Enablement

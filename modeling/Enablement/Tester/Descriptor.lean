import Enablement.Element.Attribute
import Enablement.Platform
import Enablement.Text.Commas
/-!
# Tester descriptors — declarations of property testers

A contributor declares a tester for a type, a namespace and a list of property names. The names are
kept as one text, each between commas, so that a name is looked for as a part of the text.
-/

namespace Enablement

/-- The declaration of a property tester. -/
structure Descriptor where
  id : String
  typeName : String
  namespaceName : String
  /-- The names with a comma before and after each, without blanks. -/
  propertyText : List Char
  className : String
  contributor : String
  deriving DecidableEq, Repr

namespace Descriptor

/-- Drops the blanks of a list of names and puts commas around it. -/
def normalize (properties : String) : List Char :=
  ',' :: (properties.toList.filter (fun c => !Blank.isBlank c) ++ [','])

/-- The descriptor with a list of names in any form. -/
def ofFields (id typeName namespaceName properties className contributor : String) : Descriptor :=
  { id, typeName, namespaceName, propertyText := normalize properties, className, contributor }

/-- Whether a text occurs in another. -/
def occursIn (part : List Char) : List Char → Bool
  | [] => part.isEmpty
  | c :: r => part.isPrefixOf (c :: r) || occursIn part r

/-- The names that are listed. -/
def properties (d : Descriptor) : List String :=
  ((Commas.split d.propertyText).filter (fun p => !p.isEmpty)).map String.ofList

/-- Whether the tester answers for a property. -/
def handles (d : Descriptor) (namespaceName property : String) : Bool :=
  d.namespaceName == namespaceName && occursIn (',' :: (property.toList ++ [','])) d.propertyText

/-- The descriptor of an element. Its contributor is the element's own, or else the fallback. -/
def ofNode (n : Node) (fallback : Option String) : Except Fault Descriptor := do
  let contributor ← match n.contributor.or fallback with
    | some c => pure c
    | none => throw (.missingAttribute n.name "contributor")
  let id ← n.require "id"
  let typeName ← n.require "type"
  let namespaceName ← n.require "namespace"
  let properties ← n.require "properties"
  let className ← n.require "class"
  return ofFields id typeName namespaceName properties className contributor

/-- The name of the elements that declare testers. -/
def tag : String := "propertyTester"

/-- The descriptors of the tester elements among the children of an extension, in order, or the
fault of the first that has one. -/
def ofExtension (n : Node) : Except Fault (List Descriptor) :=
  (n.children.filter (fun c => c.name == tag)).mapM (fun c => ofNode c n.contributor)

end Descriptor

/-- An object that answers for a descriptor. Its number is its identity. -/
structure TesterObject where
  number : Nat
  run : Tester

/-- A tester that is only declared, or also instantiated. -/
structure Handle where
  descriptor : Descriptor
  object : Option TesterObject := none

namespace Handle

def isInstantiated (h : Handle) : Bool := h.object.isSome

def handles (h : Handle) (namespaceName property : String) : Bool :=
  h.descriptor.handles namespaceName property

/-- Whether the contributor of the tester is active. -/
def isActive (h : Handle) (p : Platform) : Bool := p.isActive h.descriptor.contributor

end Handle

end Enablement

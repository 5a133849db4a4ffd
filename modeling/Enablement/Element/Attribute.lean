import Enablement.Argument
import Enablement.Element.Basic
/-!
# Attributes — what an element's attributes say

Reading mandatory, boolean, literal and list attributes of a node, and the faults of those that are
missing or out of range.
-/

namespace Enablement

/-- Whether two texts agree, the case of ASCII letters aside. -/
def equalIgnoringCase (a b : String) : Bool :=
  a.toList.map Binary64.lowerAscii == b.toList.map Binary64.lowerAscii

/-- Accepts one of the expected values of an attribute. -/
def checkAttributeValue (attr value : String) (expected : List String) : Except Fault Unit :=
  if value ∈ expected then .ok () else .error (.wrongAttributeValue attr value expected)

namespace Node

/-- The value of a mandatory attribute. -/
def require (n : Node) (attr : String) : Except Fault String :=
  match n.attribute? attr with
  | some v => .ok v
  | none => .error (.missingAttribute n.name attr)

/-- Whether an attribute reads `true` in any case; a missing one does not. -/
def isTrue (n : Node) (attr : String) : Bool :=
  (n.attribute? attr).any (equalIgnoringCase · "true")

/-- The arguments that an attribute lists; a missing one lists none. -/
def arguments (n : Node) (attr : String) : Except Fault (List Value) :=
  match n.attribute? attr with
  | some text => Argument.parse text
  | none => .ok []

/-- The literal of an optional attribute. -/
def literal? (n : Node) (attr : String) : Except Fault (Option Value) :=
  match n.attribute? attr with
  | some text => (Argument.convert text.toList).map some
  | none => .ok none

end Node

end Enablement

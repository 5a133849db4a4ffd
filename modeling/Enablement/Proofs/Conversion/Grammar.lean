import Enablement.Convert.Standard
import Enablement.Proofs.Conversion.Outcome
/-!
# The grammar of the standard language

The language is given by tables that read nothing but an element. Each name has its demands on the
attributes and the number of children (`demands?`), in the order in which they are looked at, so
that the first one that is not met is the fault of the element (`ownFault?`). The children of some
elements are conditions again (`branching`); with them begins the order of the document (`reached`).
What an element means is a relation to expressions: the kind that it names, configured as its
attributes say (`Heads`), over what its children mean (`Mirrors`).
-/

namespace Enablement

namespace Standard

/-! ## What the language asks of an element -/

/-- What an element has to meet. Of an attribute that may be missing only the text is looked at. -/
inductive Demand where
  /-- The attribute is there. -/
  | present (attr : String)
  /-- Its text has a point, which parts a namespace from a name. -/
  | qualified (attr : String)
  /-- Its text is one of some. -/
  | oneOf (attr : String) (values : List String)
  /-- Its text is a literal. -/
  | literal (attr : String)
  /-- Its text is a list of literals. -/
  | arguments (attr : String)
  /-- The element has exactly one child. -/
  | onlyChild

/-- The fault of a reading that fails. -/
def faultOf {α : Type} : Except Fault α → Option Fault
  | .error f => some f
  | .ok _ => none

theorem faultOf_map {α β : Type} (g : α → β) (r : Except Fault α) :
    faultOf (r.map g) = faultOf r := by
  cases r <;> rfl

/-- The fault of an element that does not meet a demand. -/
def Demand.fault? (n : Node) : Demand → Option Fault
  | present attr =>
    if n.attribute? attr = none then some (.missingAttribute n.name attr) else none
  | qualified attr =>
    (n.attribute? attr).bind fun text =>
      if '.' ∈ text.toList then none else some (.noNamespace text)
  | oneOf attr values =>
    (n.attribute? attr).bind fun text =>
      if text ∈ values then none else some (.wrongAttributeValue attr text values)
  | literal attr => (n.attribute? attr).bind fun text => faultOf (Argument.convert text.toList)
  | arguments attr => (n.attribute? attr).bind fun text => faultOf (Argument.parse text)
  | onlyChild =>
    if n.children.length = 1 then none
    else some (.missingExpression (.notOneChild n.children.length))

/-- The demands on the elements of a name, in the order in which they are looked at. The language
has no other elements. -/
def demands? (name : String) : Option (List Demand) :=
  match name with
  | "and" => some []
  | "or" => some []
  | "not" => some [.onlyChild]
  | "enablement" => some []
  | "with" => some [.present "variable"]
  | "resolve" => some [.present "variable", .arguments "args"]
  | "adapt" => some [.present "type"]
  | "iterate" => some [.oneOf "operator" ["and", "or"]]
  | "count" => some []
  | "equals" => some [.present "value", .literal "value"]
  | "systemTest" => some [.present "property", .present "value"]
  | "test" =>
    some [.present "property", .qualified "property", .arguments "args", .literal "value"]
  | "reference" => some [.present "definitionId"]
  | "instanceof" => some [.present "value"]
  | _ => none

/-- The elements whose children are conditions again. -/
def branching : List String :=
  ["and", "or", "not", "enablement", "with", "resolve", "adapt", "iterate"]

/-- An element of the language that meets all demands. -/
def WellFormed (n : Node) : Prop :=
  ∃ ds, demands? n.name = some ds ∧ ∀ d ∈ ds, d.fault? n = none

/-- The first fault of an element itself. -/
def ownFault? (n : Node) : Option Fault :=
  match demands? n.name with
  | some ds => ds.findSome? (Demand.fault? n)
  | none => some (.missingExpression (.unhandled n.name))

/-- The children that are looked at. -/
def lookedAt (n : Node) : List Node := if n.name ∈ branching then n.children else []

mutual

/-- The elements that are reached from one, in document order: the element itself, and what is
reached from its children, if they are looked at. -/
def reached : Node → List Node
  | .mk name attributes children contributor =>
    .mk name attributes children contributor ::
      if name ∈ branching then reachedAll children else []

def reachedAll : List Node → List Node
  | [] => []
  | n :: ns => reached n ++ reachedAll ns

end

/-- An element is well formed exactly if it has no fault itself. -/
theorem wellFormed_iff {n : Node} : WellFormed n ↔ ownFault? n = none := by
  rw [WellFormed, ownFault?]
  cases demands? n.name <;> simp

theorem ownFault?_eq {n : Node} {ds : List Demand} (h : demands? n.name = some ds) :
    ownFault? n = ds.findSome? (Demand.fault? n) := by
  rw [ownFault?, h]

/-- What is reached from an element: the element itself, and what is reached from the children that
are looked at. -/
theorem reached_eq (n : Node) : reached n = n :: (lookedAt n).flatMap reached := by
  have hall : ∀ ns, reachedAll ns = ns.flatMap reached := by
    intro ns
    induction ns with
    | nil => rfl
    | cons n ns ih => rw [reachedAll, ih, List.flatMap_cons]
  cases n with
  | mk name attributes children contributor =>
    rw [reached, lookedAt, hall]
    by_cases h : name ∈ branching <;> simp [Node.name, Node.children, h]

theorem findSome?_reached (n : Node) :
    (reached n).findSome? ownFault? =
      (ownFault? n).or (((lookedAt n).flatMap reached).findSome? ownFault?) := by
  rw [reached_eq, List.findSome?_cons]
  cases ownFault? n <;> rfl

/-! ## What an element says -/

/-- The operator of a connective. -/
def operator : Connective → String
  | .and => "and"
  | .or => "or"

/-- An expression is of the kind that an element names, and configured as its attributes say. -/
inductive Heads (linked : Bool) (n : Node) : Expr → Prop
  | and (xs : List Expr) (hname : n.name = "and") : Heads linked n (.and xs)
  | or (xs : List Expr) (hname : n.name = "or") : Heads linked n (.or xs)
  | not (x : Expr) (hname : n.name = "not") : Heads linked n (.not x)
  | enablement (xs : List Expr) (hname : n.name = "enablement") : Heads linked n (.enablement xs)
  | withVariable {variableName : String} (xs : List Expr) (hname : n.name = "with")
    (hvariable : n.attribute? "variable" = some variableName) :
    Heads linked n (.withVariable variableName xs)
  | resolve {variableName : String} {args : List Value} (xs : List Expr)
    (hname : n.name = "resolve") (hvariable : n.attribute? "variable" = some variableName)
    (hargs : n.arguments "args" = .ok args) : Heads linked n (.resolve variableName args xs)
  | adapt {target : String} (xs : List Expr) (hname : n.name = "adapt")
    (htype : n.attribute? "type" = some target) : Heads linked n (.adapt target xs)
  | iterate {connective : Connective} (xs : List Expr) (hname : n.name = "iterate")
    (hoperator : (n.attribute? "operator").getD "and" = operator connective) :
    Heads linked n
      (.iterate connective ((n.attribute? "ifEmpty").map (equalIgnoringCase · "true")) xs)
  | count (hname : n.name = "count") :
    Heads linked n (.count (.ofString ((n.attribute? "value").getD "*")))
  | equals {text : String} {value : Value} (hname : n.name = "equals")
    (htext : n.attribute? "value" = some text) (hvalue : Argument.convert text.toList = .ok value) :
    Heads linked n (.equals value)
  | systemTest {property value : String} (hname : n.name = "systemTest")
    (hproperty : n.attribute? "property" = some property)
    (hvalue : n.attribute? "value" = some value) : Heads linked n (.systemTest property value)
  | test {namespaceName property : String} {args : List Value} {expected : Option Value}
    (hname : n.name = "test")
    (hqualified : n.attribute? "property" = some (namespaceName ++ "." ++ property))
    (hproperty : '.' ∉ property.toList) (hargs : n.arguments "args" = .ok args)
    (hexpected : n.literal? "value" = .ok expected) :
    Heads linked n (.test
      { namespaceName, property, args, expected, force := n.isTrue "forcePluginActivation" })
  | reference {id : String} (hname : n.name = "reference")
    (hid : n.attribute? "definitionId" = some id) : Heads linked n (.reference id linked)
  | instanceOf {typeName : String} (hname : n.name = "instanceof")
    (hvalue : n.attribute? "value" = some typeName) : Heads linked n (.instanceOf typeName)

/-- An expression mirrors an element: it is of the same kind and configured alike, and the
expressions it is over mirror the children that are looked at, in the same order. -/
inductive Mirrors (linked : Bool) : Node → Expr → Prop
  | intro {n : Node} {x : Expr} (head : Heads linked n x)
    (below : List.Forall₂ (Mirrors linked) (lookedAt n) x.children) : Mirrors linked n x

end Standard

end Enablement

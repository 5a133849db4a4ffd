import Enablement.NameMap
/-!
# Elements — the trees that conditions are written in

An element has a name, attributes with text values, children, and optionally a contributor. Elements
are read through nodes: a node is what a reader of a tree sees, wherever the tree is stored. An
attribute of a node may be listed and yet read as absent, as an empty attribute of a document tree
does.
-/

namespace Enablement

/-- An element that owns its parts. -/
inductive Element where
  | mk (name : String) (attributes : NameMap String) (children : List Element)
    (contributor : Option String)
  deriving Inhabited

namespace Element

def name : Element → String
  | mk name _ _ _ => name

def attributes : Element → NameMap String
  | mk _ attributes _ _ => attributes

def children : Element → List Element
  | mk _ _ children _ => children

def contributor : Element → Option String
  | mk _ _ _ contributor => contributor

mutual

/-- Whether two elements agree in all their parts. -/
def same : Element → Element → Bool
  | mk n a cs k, mk n' a' cs' k' => n == n' && decide (a = a') && sameAll cs cs' && k == k'

def sameAll : List Element → List Element → Bool
  | [], [] => true
  | e :: es, f :: fs => same e f && sameAll es fs
  | _, _ => false

end

instance : BEq Element := ⟨same⟩

end Element

/-- An element as a reader sees it: the listed attributes with the values they read as. -/
inductive Node where
  | mk (name : String) (attributes : List (String × Option String)) (children : List Node)
    (contributor : Option String)
  deriving Inhabited

namespace Node

def name : Node → String
  | mk name _ _ _ => name

def attributes : Node → List (String × Option String)
  | mk _ attributes _ _ => attributes

def children : Node → List Node
  | mk _ _ children _ => children

def contributor : Node → Option String
  | mk _ _ _ contributor => contributor

/-- The value of an attribute, if it has one. -/
def attribute? (n : Node) (name : String) : Option String :=
  (n.attributes.find? (fun e => e.1 == name)).bind (·.2)

/-- The attributes that have a value. -/
def presentAttributes (n : Node) : List (String × String) :=
  n.attributes.filterMap (fun e => e.2.map (e.1, ·))

end Node

mutual

/-- The node of an owned element: all its attributes are present. -/
def Element.toNode : Element → Node
  | .mk name attributes children contributor =>
    .mk name (attributes.entries.map (fun e => (e.1, some e.2))) (Element.toNodes children)
      contributor

def Element.toNodes : List Element → List Node
  | [] => []
  | e :: es => e.toNode :: Element.toNodes es

end

mutual

/-- The owned copy of a node: present attributes, children and contributor. -/
def Element.ofNode : Node → Element
  | .mk name attributes children contributor =>
    .mk name (NameMap.ofList (attributes.filterMap (fun e => e.2.map (e.1, ·))))
      (Element.ofNodes children) contributor

def Element.ofNodes : List Node → List Element
  | [] => []
  | n :: ns => Element.ofNode n :: Element.ofNodes ns

end

end Enablement

import Enablement.Element.Basic
/-!
# Document trees — elements, text and comments in one arena

Nodes are numbered in the order of their creation and linked by parent, first and last child, and
next sibling. A node is attached once and never below itself, so the links form a forest and every
walk along them is bounded by the number of nodes. Text and comments stay in the tree, but readers
of elements do not see them. An attribute with an empty value is listed and reads as absent.
-/

namespace Enablement

/-- What a node of a document tree is. -/
inductive DomKind where
  | element (name : String) (attributes : List (String × String))
  | text (text : String)
  | comment (text : String)
  deriving DecidableEq, Repr

/-- A node with its links. -/
structure DomNode where
  kind : DomKind
  parent : Option Nat := none
  firstChild : Option Nat := none
  lastChild : Option Nat := none
  nextSibling : Option Nat := none
  deriving DecidableEq, Repr

/-- A document tree; the contributor is that of all its elements. -/
structure Document where
  nodes : List DomNode := []
  contributor : Option String := none
  deriving DecidableEq, Repr

namespace Document

/-- Changes the node of a number. -/
def modify (d : Document) (n : Nat) (f : DomNode → DomNode) : Document :=
  { d with nodes := d.nodes.modify n f }

/-- Adds a node without links. -/
def create (d : Document) (kind : DomKind) : Document × Nat :=
  ({ d with nodes := d.nodes ++ [{ kind }] }, d.nodes.length)

/-- Replaces the value of an attribute in a list, or appends the attribute. -/
def putAttribute (name value : String) : List (String × String) → List (String × String)
  | [] => [(name, value)]
  | (n, v) :: rest =>
    if n = name then (n, value) :: rest else (n, v) :: putAttribute name value rest

/-- Sets an attribute of an element; other nodes stay as they are. -/
def setAttribute (d : Document) (n : Nat) (name value : String) : Document :=
  d.modify n fun node =>
    match node.kind with
    | .element e attributes => { node with kind := .element e (putAttribute name value attributes) }
    | _ => node

/-- Whether a node is `a` or below it, following at most `fuel` links upwards. -/
def reachesUp (d : Document) (a : Nat) : Nat → Nat → Bool
  | 0, _ => false
  | fuel + 1, n =>
    n == a ||
      match d.nodes[n]? with
      | some node =>
        match node.parent with
        | some p => d.reachesUp a fuel p
        | none => false
      | none => false

/-- Whether `a` is `n` or one of its ancestors. -/
def isAncestorOrSelf (d : Document) (a n : Nat) : Bool :=
  d.reachesUp a (d.nodes.length + 1) n

/-- Whether `c` may become the last child of `p`: both are known, `c` has no parent, and `c` is not
`p` or above it. -/
def canAppend (d : Document) (p c : Nat) : Bool :=
  match d.nodes[p]?, d.nodes[c]? with
  | some _, some child => child.parent.isNone && !d.isAncestorOrSelf c p
  | _, _ => false

/-- Makes `c` the last child of `p` if it may be, and tells whether it did. -/
def append (d : Document) (p c : Nat) : Document × Bool :=
  if d.canAppend p c then
    let d :=
      match d.nodes[p]?.bind (·.lastChild) with
      | some last => d.modify last fun node => { node with nextSibling := some c }
      | none => d.modify p fun node => { node with firstChild := some c }
    let d := d.modify p fun node => { node with lastChild := some c }
    (d.modify c fun node => { node with parent := some p }, true)
  else (d, false)

def kind? (d : Document) (n : Nat) : Option DomKind := d.nodes[n]?.map DomNode.kind

def firstChild? (d : Document) (n : Nat) : Option Nat := d.nodes[n]?.bind (·.firstChild)

def nextSibling? (d : Document) (n : Nat) : Option Nat := d.nodes[n]?.bind (·.nextSibling)

/-- The text of a text or comment node. -/
def text? (d : Document) (n : Nat) : Option String :=
  match d.kind? n with
  | some (.text t) => some t
  | some (.comment t) => some t
  | _ => none

/-- A node and its next siblings, following at most `fuel` links. -/
def chain (d : Document) : Nat → Option Nat → List Nat
  | 0, _ => []
  | _, none => []
  | fuel + 1, some n => n :: d.chain fuel (d.nextSibling? n)

/-- The children of a node, of all kinds, in order. -/
def childNodes (d : Document) (n : Nat) : List Nat :=
  d.chain d.nodes.length (d.firstChild? n)

/-- An attribute as it reads: an empty one is absent. -/
def readAttribute (e : String × String) : String × Option String :=
  (e.1, if e.2.isEmpty then none else some e.2)

/-- The node that a reader of element `n` sees, to a depth of at most `fuel`. -/
def viewWithin (d : Document) : Nat → Nat → Option Node
  | 0, _ => none
  | fuel + 1, n =>
    match d.kind? n with
    | some (.element name attributes) =>
      some (.mk name (attributes.map readAttribute)
        ((d.childNodes n).filterMap (d.viewWithin fuel)) d.contributor)
    | _ => none

/-- The node that a reader of element `n` sees; other nodes are not seen. -/
def view? (d : Document) (n : Nat) : Option Node := d.viewWithin (d.nodes.length + 1) n

end Document

end Enablement

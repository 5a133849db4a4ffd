import Enablement.Number.Digits
import Enablement.Value.Order
/-!
# Expressions — trees of conditions

An expression combines others, rebinds what they are asked about, or asks a question itself. Two
kinds belong to the host: a leaf with a fixed outcome, and a group that combines its children as a
conjunction or disjunction does. Equality is structural; whether a reference is linked to a registry
does not count, nor does the label of a fixed outcome.
-/

namespace Enablement

/-- How several outcomes become one. -/
inductive Connective where
  | and
  | or
  deriving DecidableEq, Repr, Inhabited

/-- The sizes that a count accepts. -/
inductive CountMode where
  | any
  | noneOrOne
  | none
  | oneOrMore
  | exact (n : Int)
  /-- A mode that could not be read; it accepts no size. -/
  | unknown
  deriving DecidableEq, Repr, Inhabited

namespace CountMode

/-- Reads a mode: one of four signs, or an integer of 32 bits. -/
def ofString (text : String) : CountMode :=
  if text = "*" then .any
  else if text = "?" then .noneOrOne
  else if text = "!" then .none
  else if text = "+" then .oneOrMore
  else
    match Digits.readInt32? text.toList with
    | some n => .exact n
    | Option.none => .unknown

/-- Whether a size is accepted. -/
def accepts : CountMode → Nat → Bool
  | .any, _ => true
  | .noneOrOne, size => size ≤ 1
  | .none, size => size == 0
  | .oneOrMore, size => 1 ≤ size
  | .exact n, size => n == (size : Int)
  | .unknown, _ => false

end CountMode

/-- A question about a property of the default variable. -/
structure PropertyTest where
  namespaceName : String
  property : String
  args : List Value := []
  expected : Option Value := none
  /-- Whether the question may activate a dormant contributor. -/
  force : Bool := false
  deriving Repr

/-- An expression. -/
inductive Expr where
  | and (children : List Expr)
  | or (children : List Expr)
  | not (child : Expr)
  /-- The root of a condition; a conjunction. -/
  | enablement (children : List Expr)
  /-- A conjunction asked about a named variable. -/
  | withVariable (variableName : String) (children : List Expr)
  /-- A conjunction asked about a variable that resolvers compute. -/
  | resolve (variableName : String) (args : List Value) (children : List Expr)
  /-- A conjunction asked about the default variable as another type. -/
  | adapt (target : String) (children : List Expr)
  /-- A conjunction asked about each element of the default variable. -/
  | iterate (connective : Connective) (ifEmpty : Option Bool) (children : List Expr)
  | count (mode : CountMode)
  | equals (value : Value)
  | systemTest (property value : String)
  | test (question : PropertyTest)
  /-- A named definition; a linked one shows what it accesses. -/
  | reference (id : String) (linked : Bool)
  | instanceOf (typeName : String)
  | constant (value : Bool)
  /-- A host's leaf with a fixed outcome, which is given by its name. -/
  | fixed (label : Option String) (outcome : String)
  /-- A host's combination. -/
  | group (connective : Connective) (children : List Expr)
  deriving Repr, Inhabited

namespace PropertyTest

/-- The property with its namespace. -/
def qualified (t : PropertyTest) : String := t.namespaceName ++ "." ++ t.property

/-- Whether two questions are the same. -/
def same (a b : PropertyTest) : Bool :=
  a.namespaceName == b.namespaceName && a.property == b.property && a.force == b.force
    && (match a.expected, b.expected with
      | some v, some w => v == w
      | none, none => true
      | _, _ => false)
    && Value.sameItems a.args b.args

end PropertyTest

namespace Expr

/-- The name of an expression's kind. -/
def typeName : Expr → String
  | .and _ => "AndExpression"
  | .or _ => "OrExpression"
  | .not _ => "NotExpression"
  | .enablement _ => "EnablementExpression"
  | .withVariable _ _ => "WithExpression"
  | .resolve _ _ _ => "ResolveExpression"
  | .adapt _ _ => "AdaptExpression"
  | .iterate _ _ _ => "IterateExpression"
  | .count _ => "CountExpression"
  | .equals _ => "EqualsExpression"
  | .systemTest _ _ => "SystemTestExpression"
  | .test _ => "TestExpression"
  | .reference _ _ => "ReferenceExpression"
  | .instanceOf _ => "InstanceofExpression"
  | .constant _ => "ConstantExpression"
  | .fixed _ _ => "Fixed"
  | .group _ _ => "Group"

/-- The expressions that an expression is over. -/
def children : Expr → List Expr
  | .and cs => cs
  | .or cs => cs
  | .not c => [c]
  | .enablement cs => cs
  | .withVariable _ cs => cs
  | .resolve _ _ cs => cs
  | .adapt _ cs => cs
  | .iterate _ _ cs => cs
  | .group _ cs => cs
  | _ => []

mutual

/-- Structural equality. -/
def same : Expr → Expr → Bool
  | .and cs, .and ds => sameAll cs ds
  | .or cs, .or ds => sameAll cs ds
  | .not c, .not d => same c d
  | .enablement cs, .enablement ds => sameAll cs ds
  | .withVariable x cs, .withVariable y ds => x == y && sameAll cs ds
  | .resolve x as cs, .resolve y bs ds => x == y && Value.sameItems as bs && sameAll cs ds
  | .adapt s cs, .adapt t ds => s == t && sameAll cs ds
  | .iterate o e cs, .iterate p f ds => o == p && e == f && sameAll cs ds
  | .count m, .count n => m == n
  | .equals v, .equals w => v == w
  | .systemTest p v, .systemTest q w => p == q && v == w
  | .test a, .test b => a.same b
  | .reference i _, .reference j _ => i == j
  | .instanceOf s, .instanceOf t => s == t
  | .constant a, .constant b => a == b
  | .fixed _ a, .fixed _ b => a == b
  | .group a cs, .group b ds => a == b && sameAll cs ds
  | _, _ => false

def sameAll : List Expr → List Expr → Bool
  | [], [] => true
  | c :: cs, d :: ds => same c d && sameAll cs ds
  | _, _ => false

end

instance : BEq Expr := ⟨same⟩

end Expr

end Enablement

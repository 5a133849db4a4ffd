import Enablement.Expr.Basic
import Enablement.Value.Feed
/-!
# Hash codes of expressions

A node's hash code is computed from its kind, its configuration and the codes of its children. Most
nodes keep the code they have computed in a cell of 32 bits, in which the largest value means that
nothing has been computed yet; a code that happens to be that value is replaced by its successor,
zero.
-/

namespace Enablement

/-- The content of a cell in which no code has been stored. -/
def notComputed : UInt32 := 0xFFFFFFFF

/-- The code that a cell stores for a computed one. -/
def settle (code : UInt32) : UInt32 := if code = notComputed then code + 1 else code

/-- A cell that keeps a code once it has been computed. -/
structure HashCell where
  stored : UInt32 := notComputed
  deriving DecidableEq, Repr

namespace HashCell

/-- The stored code, or else the computed one, which is then stored. The flag tells whether
`compute` was needed. -/
def getOrCompute (cell : HashCell) (compute : Unit → UInt32) : UInt32 × Bool × HashCell :=
  if cell.stored ≠ notComputed then (cell.stored, false, cell)
  else
    let code := settle (compute ())
    (code, true, ⟨code⟩)

end HashCell

namespace Expr

/-- The factor by which codes are combined. -/
def hashFactor : UInt32 := 89

/-- The code of a list of values. -/
def codeOfValues (h : Hasher) (vs : List Value) : UInt32 :=
  vs.foldl (fun code v => code * hashFactor + h v.feed) (h [.text "[Value]"])

/-- The atoms of an optional value. -/
def feedOption : Option Value → List Atom
  | none => [.tag 0]
  | some v => .tag 1 :: v.feed

/-- The atoms of a count mode. -/
def feedMode : CountMode → List Atom
  | .any => [.tag 0]
  | .noneOrOne => [.tag 1]
  | .none => [.tag 2]
  | .oneOrMore => [.tag 3]
  | .exact n => [.tag 4, .int n]
  | .unknown => [.tag 5]

/-- The atoms of a connective. -/
def feedConnective : Connective → List Atom
  | .and => [.tag 0]
  | .or => [.tag 1]

/-- The atoms of an optional boolean. -/
def feedFlag : Option Bool → List Atom
  | none => [.tag 0]
  | some b => [.tag 1, .flag b]

/-- The code of a list of expressions with the given codes. -/
def codeOfCodes (h : Hasher) (codes : List UInt32) : UInt32 :=
  codes.foldl (fun code c => code * hashFactor + c) (h [.text "[Expression]"])

/-- The code that a node computes from its kind, its configuration and the codes of its children. -/
def mixCodes (h : Hasher) (codes : List UInt32) : Expr → UInt32
  | .and _ => h [.text "AndExpression"] + codeOfCodes h codes
  | .or _ => h [.text "OrExpression"] + codeOfCodes h codes
  | .not _ => codes.foldl (fun code c => code * hashFactor + c) (h [.text "NotExpression"])
  | .enablement _ => h [.text "EnablementExpression"] + codeOfCodes h codes
  | .withVariable x _ => h [.text "WithExpression", .text x] * hashFactor + codeOfCodes h codes
  | .resolve x args _ =>
    (h [.text "ResolveExpression", .text x] * hashFactor + codeOfValues h args) * hashFactor
      + codeOfCodes h codes
  | .adapt t _ => h [.text "AdaptExpression", .text t] * hashFactor + codeOfCodes h codes
  | .iterate o e _ =>
    h (.text "IterateExpression" :: (feedConnective o ++ feedFlag e)) * hashFactor
      + codeOfCodes h codes
  | .count m => h (.text "CountExpression" :: feedMode m)
  | .equals v => h [.text "EqualsExpression"] * hashFactor + h v.feed
  | .systemTest p v => h [.text "SystemTestExpression", .text p, .text v]
  | .test t =>
    h (.text "TestExpression" :: .text t.namespaceName :: .text t.property
      :: (feedOption t.expected ++ [.flag t.force])) * hashFactor + codeOfValues h t.args
  | .reference id _ => h [.text "ReferenceExpression", .text id]
  | .instanceOf t => h [.text "InstanceofExpression"] * hashFactor + h [.text t]
  | .constant b => h [.text "ConstantExpression", .flag b]
  | .fixed _ outcome => h [.text "Fixed", .text outcome]
  | .group o _ => h (.text "Group" :: feedConnective o) + codeOfCodes h codes

/-- Whether a node has a cell for its code. Constants and the host's nodes have none. -/
def hasCell : Expr → Bool
  | .constant _ => false
  | .fixed _ _ => false
  | .group _ _ => false
  | _ => true

/-- The code that a node answers with when its cell is empty and its children have the given
codes. -/
def codeOver (h : Hasher) (codes : List UInt32) (e : Expr) : UInt32 :=
  if e.hasCell then settle (e.mixCodes h codes) else e.mixCodes h codes

mutual

/-- The hash code of an expression. -/
def code (h : Hasher) : Expr → UInt32
  | .and cs => (Expr.and cs).codeOver h (codes h cs)
  | .or cs => (Expr.or cs).codeOver h (codes h cs)
  | .not c => (Expr.not c).codeOver h [code h c]
  | .enablement cs => (Expr.enablement cs).codeOver h (codes h cs)
  | .withVariable x cs => (Expr.withVariable x cs).codeOver h (codes h cs)
  | .resolve x args cs => (Expr.resolve x args cs).codeOver h (codes h cs)
  | .adapt t cs => (Expr.adapt t cs).codeOver h (codes h cs)
  | .iterate o e cs => (Expr.iterate o e cs).codeOver h (codes h cs)
  | .group o cs => (Expr.group o cs).codeOver h (codes h cs)
  | leaf => leaf.codeOver h []

/-- The hash codes of a list of expressions. -/
def codes (h : Hasher) : List Expr → List UInt32
  | [] => []
  | c :: cs => code h c :: codes h cs

end

theorem codes_eq_map (h : Hasher) (cs : List Expr) : codes h cs = cs.map (code h) := by
  induction cs with
  | nil => rfl
  | cons c cs ih => simp [codes, ih]

/-- An expression's code is computed from those of its children. -/
theorem code_eq_codeOver (h : Hasher) (e : Expr) :
    e.code h = e.codeOver h (e.children.map (code h)) := by
  cases e <;> simp [code, children, codes_eq_map]

end Expr

end Enablement

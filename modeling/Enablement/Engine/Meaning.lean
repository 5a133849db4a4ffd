import Enablement.Engine.Conversion
import Enablement.Engine.Lookup
import Enablement.Scope
/-!
# Meaning — what expressions evaluate to

The meaning of an expression is an act for every context. It is composed from the meanings of the
children, by recursion on the tree. What a reference means is a parameter of this recursion; it is
supplied by evaluating the definition. How deep definitions are entered is bounded: once each, and a
fixed number of times more for those that refer to themselves on the parts of a value.
-/

namespace Enablement

/-- What an expression does in a context. -/
abbrev Meaning := Context → Act Truth

/-! ## Combining outcomes -/

namespace Act

/-- Acts one after another until one is false; the outcome so far counts. -/
def allOf (soFar : Truth) : List (Act Truth) → Act Truth
  | [] => pure soFar
  | x :: xs => do
    let t := soFar.and (← x)
    if t = .no then pure t else allOf t xs

/-- Acts one after another until one is true; the outcome so far counts. -/
def anyOf (soFar : Truth) : List (Act Truth) → Act Truth
  | [] => pure soFar
  | x :: xs => do
    let t := soFar.or (← x)
    if t = .yes then pure t else anyOf t xs

end Act

namespace Meaning

/-- The conjunction of meanings. -/
def all (ms : List Meaning) : Meaning := fun ctx => Act.allOf .yes (ms.map (· ctx))

/-- The disjunction of meanings; none at all is true. -/
def any (ms : List Meaning) : Meaning := fun ctx =>
  if ms.isEmpty then pure .yes else Act.anyOf .no (ms.map (· ctx))

/-! ## The questions -/

/-- A conjunction asked about a named variable. One without a value makes it false. -/
def withVariable (name : String) (body : Meaning) : Meaning := fun ctx =>
  match Context.binding? name ctx with
  | none => Act.fail (.variableNotDefined name)
  | some v =>
    if v.isUndefined then pure .no else body (.frame { defaultVariable := v } :: ctx)

/-- A conjunction asked about a computed variable. -/
def resolve (name : String) (args : List Value) (body : Meaning) : Meaning := fun ctx =>
  match Context.resolve name args ctx with
  | .error f => Act.fail f
  | .ok none => Act.fail (.variableNotResolved name)
  | .ok (some v) => body (.frame { defaultVariable := v } :: ctx)

/-- A conjunction asked about the default variable as another type: itself if it is of that type, or
else what an adapter makes of it. -/
def adapt (target : String) (body : Meaning) : Meaning := fun ctx => do
  let v := Context.defaultVariable ctx
  let p ← Act.read (·.platform)
  if p.isInstance v target then body (.rebound v :: ctx)
  else if !p.hasAdapter v target then pure .no
  else
    match p.adapt? v target with
    | some w => body (.rebound w :: ctx)
    | none => pure (if p.adapterStatus v target = .notLoaded then .notLoaded else .no)

/-- What a value that is no collection is adapted to. None means that the adapter is not loaded. -/
def adaptCollection {α : Type} (p : Platform) (v : Value) (target : String)
    (read? : Value → Option α) : Except Fault (Option α) :=
  match p.adapt? v target with
  | some w =>
    match read? w with
    | some a => .ok (some a)
    | none => .error (.notACollection v.typeName)
  | none =>
    if p.adapterStatus v target = .notLoaded then .ok none
    else .error (.notACollection v.typeName)

/-- The size or the elements of a value: its own, or else those of what it is adapted to. -/
def collection {α : Type} (p : Platform) (v : Value) (target : String)
    (read? : Value → Option α) : Except Fault (Option α) :=
  match read? v with
  | some a => .ok (some a)
  | none => adaptCollection p v target read?

/-- Whether the size of the default variable is accepted. -/
def count (mode : CountMode) : Meaning := fun ctx => do
  let p ← Act.read (·.platform)
  match ← Act.ofExcept
      (collection p (Context.defaultVariable ctx) Platform.countableType Value.count?) with
  | none => pure .notLoaded
  | some n => pure (.ofBool (mode.accepts n))

/-- The outcome of an iteration over no elements. -/
def emptyOutcome (connective : Connective) (ifEmpty : Option Bool) : Truth :=
  .ofBool (ifEmpty.getD (connective == .and))

/-- A body asked about one element after another, until the outcome is settled. -/
def steps (connective : Connective) (body : Meaning) (ctx : Context) :
    (soFar : Truth) → List Value → Act Truth
  | soFar, [] => pure soFar
  | soFar, v :: rest => do
    let t ← body (.stepping v rest :: ctx)
    match connective with
    | .and =>
      if soFar.and t = .no then pure .no else steps connective body ctx (soFar.and t) rest
    | .or =>
      if soFar.or t = .yes then pure .yes else steps connective body ctx (soFar.or t) rest

/-- A body asked about the elements of the default variable. -/
def iterate (connective : Connective) (ifEmpty : Option Bool) (body : Meaning) : Meaning :=
  fun ctx => do
    let p ← Act.read (·.platform)
    match ← Act.ofExcept
        (collection p (Context.defaultVariable ctx) Platform.iterableType Value.elements?) with
    | none => pure .notLoaded
    | some [] => pure (emptyOutcome connective ifEmpty)
    | some [v] => body (.rebound v :: ctx)
    | some vs => steps connective body ctx (.ofBool (connective == .and)) vs

/-- Whether a system property is set and has a value. An empty one counts as not set. -/
def systemTest (property value : String) : Meaning := fun _ => do
  match ← Act.read (·.platform.property? property) with
  | some actual => pure (.ofBool (!actual.isEmpty && actual == value))
  | none => pure .no

/-- A question about a system property, put to the platform type. -/
def platformTest (q : PropertyTest) : Act Truth := do
  match ← Act.read (·.platform.property? q.property), q.args with
  | some actual, .string expected :: _ => pure (.ofBool (actual == expected))
  | _, _ => pure .no

/-- A question about the default variable, put to the tester that is found for it. -/
def test (q : PropertyTest) : Meaning := fun ctx =>
  let v := Context.defaultVariable ctx
  if v == .type Platform.platformType then platformTest q
  else do
    let force := Context.allowActivation ctx && q.force
    let r ← Engine.resolve v q.namespaceName q.property force
    if r.handle.isInstantiated then return .ofBool (← Engine.ask r v q.args q.expected)
    else pure .notLoaded

/-- Whether the default variable is of a type. -/
def instanceOf (t : String) : Meaning := fun ctx => do
  let p ← Act.read (·.platform)
  pure (.ofBool (p.isInstance (Context.defaultVariable ctx) t))

/-- A conjunction that leaves its outcome in the log, if evaluation is traced. -/
def enablement (body : Meaning) : Meaning := fun ctx e =>
  let (r, e) := body ctx e
  (r, if e.options.traceEvaluation then e.note (.evaluated r) else e)

/-- A leaf with a named outcome, which leaves an entry in the journal. A name that is none of an
outcome is a fault. -/
def fixed (label : Option String) (outcome : String) : Meaning := fun ctx => do
  Act.change (·.record (.fixed label outcome (Context.defaultVariable ctx)))
  match Truth.ofName? outcome with
  | some t => pure t
  | none => Act.fail (.variableNotDefined outcome)

end Meaning

/-! ## Expressions -/

namespace Expr

mutual

/-- The meaning of an expression, given that of its references. -/
def meaning (link : String → Meaning) : Expr → Meaning
  | .and cs => .all (meanings link cs)
  | .or cs => .any (meanings link cs)
  | .not c => fun ctx => do return (← meaning link c ctx).not
  | .enablement cs => .enablement (.all (meanings link cs))
  | .withVariable x cs => .withVariable x (.all (meanings link cs))
  | .resolve x args cs => .resolve x args (.all (meanings link cs))
  | .adapt t cs => .adapt t (.all (meanings link cs))
  | .iterate o ifEmpty cs => .iterate o ifEmpty (.all (meanings link cs))
  | .count mode => .count mode
  | .equals v => fun ctx => pure (.ofBool (v == Context.defaultVariable ctx))
  | .systemTest p v => .systemTest p v
  | .test q => .test q
  | .reference id _ => link id
  | .instanceOf t => .instanceOf t
  | .constant b => fun _ => pure (.ofBool b)
  | .fixed label outcome => .fixed label outcome
  | .group .and cs => .all (meanings link cs)
  | .group .or cs => .any (meanings link cs)

def meanings (link : String → Meaning) : List Expr → List Meaning
  | [] => []
  | c :: cs => meaning link c :: meanings link cs

end

end Expr

namespace Engine

/-- What a reference means when definitions may be entered to a depth. -/
def linkWithin : Nat → String → Meaning
  | 0, id => fun _ => Act.fail (.circularDefinition id)
  | depth + 1, id => fun ctx => do
    let x ← definition id
    x.meaning (linkWithin depth) ctx

/-- Evaluates an expression in a context. -/
def evaluate (x : Expr) : Meaning := fun ctx e =>
  x.meaning (linkWithin (e.referenceDepth + maxReentries)) ctx e

end Engine

end Enablement

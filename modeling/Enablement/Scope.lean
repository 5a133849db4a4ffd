import Enablement.Fault
import Enablement.NameMap
import Enablement.Value.Basic
/-!
# Scopes — what expressions are evaluated in

A context is a list of scopes, the innermost first. Frames hold named variables, resolvers and the
permission to activate contributors; the other two kinds of scopes only rebind the default variable,
and everything else is asked of the frames below them. A scope tree holds all scopes that are alive,
each with its parent, and passes questions and changes on from scope to scope.
-/

namespace Enablement

/-- Computes variables that take arguments; gives none for a name it does not know. -/
abbrev Resolver := (name : String) → (args : List Value) → Except Fault (Option Value)

/-- A scope with variables of its own. -/
structure Frame where
  defaultVariable : Value := .null
  bindings : NameMap Value := {}
  resolvers : List Resolver := []
  /-- Whether contributors may be activated, if this frame says. -/
  allowActivation : Option Bool := none

/-- A scope. -/
inductive Scope where
  | frame (f : Frame)
  /-- Rebinds the default variable. -/
  | rebound (value : Value)
  /-- Rebinds the default variable to one element after another. -/
  | stepping (current : Value) (rest : List Value)

/-- The scopes an expression is evaluated in, the innermost first. -/
abbrev Context := List Scope

namespace Scope

/-- The default variable that a scope binds. -/
def defaultVariable : Scope → Value
  | .frame f => f.defaultVariable
  | .rebound v => v
  | .stepping v _ => v

end Scope

namespace Context

/-- The object that expressions are asked about. -/
def defaultVariable : Context → Value
  | [] => .null
  | s :: _ => s.defaultVariable

/-- A named variable: the binding in the innermost frame that has one. -/
def binding? (name : String) : Context → Option Value
  | [] => none
  | .frame f :: outer =>
    match f.bindings.find? name with
    | some v => some v
    | none => binding? name outer
  | _ :: outer => binding? name outer

/-- The first answer or fault of a list of resolvers. -/
def askAll (name : String) (args : List Value) : List Resolver → Except Fault (Option Value)
  | [] => .ok none
  | r :: rs =>
    match r name args with
    | .ok none => askAll name args rs
    | answer => answer

/-- A computed variable: the first answer or fault of the resolvers, from the innermost frame
outwards. -/
def resolve (name : String) (args : List Value) : Context → Except Fault (Option Value)
  | [] => .ok none
  | .frame f :: outer =>
    match askAll name args f.resolvers with
    | .ok none => resolve name args outer
    | answer => answer
  | _ :: outer => resolve name args outer

/-- Whether contributors may be activated: what the innermost frame that says so says, else not. -/
def allowActivation : Context → Bool
  | [] => false
  | .frame f :: outer => f.allowActivation.getD (allowActivation outer)
  | _ :: outer => allowActivation outer

/-- The outermost scope, as a context of its own. -/
def root : Context → Context
  | [] => []
  | [s] => [s]
  | _ :: outer => root outer

end Context

/-! ## Scope trees -/

/-- A scope with the number of the scope it is nested in and the number of the scope that manages
named variables for it. -/
structure ScopeEntry where
  parent : Option Nat
  pool : Nat
  scope : Scope

/-- Where a scope sends what it leaves to others: one that rebinds the default variable once knows
the scope that manages named variables for it, the others know the scope they are nested in. -/
def ScopeEntry.next? (e : ScopeEntry) : Option Nat :=
  match e.scope with
  | .rebound _ => some e.pool
  | _ => e.parent

/-- The scopes that are alive, numbered from zero. A parent has a smaller number. -/
structure ScopeTree where
  entries : List ScopeEntry := []

namespace ScopeTree

/-- The scopes from number `k` outwards. -/
def context (t : ScopeTree) (k : Nat) : Context :=
  match t.entries[k]? with
  | none => []
  | some e =>
    match e.parent with
    | none => [e.scope]
    | some p => if p < k then e.scope :: context t p else [e.scope]
termination_by k

/-- The number of the scope that manages named variables for number `k`. -/
def pool (t : ScopeTree) (k : Nat) : Nat :=
  match t.entries[k]? with
  | none => k
  | some e => e.pool

/-- The number of the scope that manages named variables for a new scope. One that rebinds the
default variable once takes over that of its parent; the others manage them themselves. -/
def poolFor (t : ScopeTree) (parent : Option Nat) (scope : Scope) : Nat :=
  match scope, parent with
  | .rebound _, some p => t.pool p
  | _, _ => t.entries.length

/-- Adds a scope, and gives its number. -/
def push (t : ScopeTree) (parent : Option Nat) (scope : Scope) : ScopeTree × Nat :=
  ({ entries := t.entries ++ [{ parent, pool := t.poolFor parent scope, scope }] },
    t.entries.length)

/-- The answer of number `k`. A frame answers with what it has of its own and what it would be
answered where it sends on; the other scopes only send on. Where nothing follows, the answer is
`last`. -/
def ask {α : Type} (t : ScopeTree) (own : Nat → Frame → α → α) (last : α) (k : Nat) : α :=
  match t.entries[k]? with
  | none => last
  | some e =>
    let rest :=
      match e.next? with
      | none => last
      | some p => if p < k then ask t own last p else last
    match e.scope with
    | .frame f => own k f rest
    | _ => rest
termination_by k

/-- A named variable. -/
def binding? (t : ScopeTree) (k : Nat) (name : String) : Option Value :=
  t.ask (fun _ f rest => (f.bindings.find? name).or rest) none k

/-- Whether contributors may be activated. -/
def allowActivation (t : ScopeTree) (k : Nat) : Bool :=
  t.ask (fun _ f rest => f.allowActivation.getD rest) false k

/-- A computed variable. -/
def resolve (t : ScopeTree) (k : Nat) (name : String) (args : List Value) :
    Except Fault (Option Value) :=
  t.ask (fun _ f rest =>
    match Context.askAll name args f.resolvers with
    | .ok none => rest
    | answer => answer) (.ok none) k

/-- The frame that number `k` sends changes to, with its number. -/
def frameOf? (t : ScopeTree) (k : Nat) : Option (Nat × Frame) :=
  t.ask (fun n f _ => some (n, f)) none k

/-- Removes the newest scope. -/
def pop (t : ScopeTree) : ScopeTree := { entries := t.entries.dropLast }

/-- Changes the scope of a number. -/
def modify (t : ScopeTree) (k : Nat) (f : Scope → Scope) : ScopeTree :=
  { entries := t.entries.modify k fun e => { e with scope := f e.scope } }

/-- Changes the frame that number `k` sends changes to. -/
def modifyFrame (t : ScopeTree) (k : Nat) (f : Frame → Frame) : ScopeTree :=
  match t.frameOf? k with
  | none => t
  | some (n, fr) => t.modify n fun _ => .frame (f fr)

/-- Binds a variable. -/
def setVariable (t : ScopeTree) (k : Nat) (name : String) (value : Value) : ScopeTree :=
  t.modifyFrame k fun f => { f with bindings := f.bindings.insert name value }

/-- Unbinds a variable, and gives the value that it had in the frame. -/
def removeVariable (t : ScopeTree) (k : Nat) (name : String) : ScopeTree × Option Value :=
  (t.modifyFrame k fun f => { f with bindings := f.bindings.erase name },
    (t.frameOf? k).bind (·.2.bindings.find? name))

/-- Says whether contributors may be activated. -/
def setAllowActivation (t : ScopeTree) (k : Nat) (value : Bool) : ScopeTree :=
  t.modifyFrame k fun f => { f with allowActivation := some value }

/-- Moves a stepping scope to its next element, if there is one. -/
def advance (t : ScopeTree) (k : Nat) : ScopeTree × Bool :=
  match t.entries[k]? with
  | some ⟨_, _, .stepping _ (v :: rest)⟩ => (t.modify k fun _ => .stepping v rest, true)
  | _ => (t, false)

/-- The default variable of the scope that number `k` is nested in. -/
def parentDefault? (t : ScopeTree) (k : Nat) : Option Value :=
  match t.context k with
  | _ :: outer@(_ :: _) => some (Context.defaultVariable outer)
  | _ => none

end ScopeTree

end Enablement

import Enablement.Convert.Standard
import Enablement.Definitions
import Enablement.Tester.Registry
import Enablement.Truth
/-!
# Engines — the state that evaluation works on

An engine holds the platform, the options, the handlers, the tester registry and the definitions,
and a journal of what has happened. An act is a function of the engine that ends with a value or a
fault; the engine it leaves behind counts in both cases.
-/

namespace Enablement

/-- How important a log line is. -/
inductive Level where
  | debug
  | info
  | warn
  deriving DecidableEq, Repr

/-- Something worth a log line. -/
inductive Note where
  | cacheHit (key : PropertyKey)
  | cacheMiss (key : PropertyKey)
  | instantiated (id : String)
  | notInstantiated (id : String) (why : Fault)
  | registryChanged
  | unhandled (element : String)
  | evaluated (outcome : Except Fault Truth)

namespace Note

def level : Note → Level
  | .notInstantiated _ _ => .warn
  | .registryChanged => .info
  | _ => .debug

/-- The text of a property key. -/
def keyText (key : PropertyKey) : String :=
  key.typeName ++ ": " ++ key.namespaceName ++ "." ++ key.name

/-- The log line. -/
def text : Note → String
  | .cacheHit key => "cache hit for " ++ keyText key
  | .cacheMiss key => "cache miss for " ++ keyText key
  | .instantiated id => "instantiated tester " ++ id
  | .notInstantiated id why => "could not instantiate tester " ++ id ++ ": " ++ why.message
  | .registryChanged => "property tester registry changed; caches flushed"
  | .unhandled element => (NoExpression.unhandled element).message
  | .evaluated (.ok t) => "enablement evaluated to " ++ t.text
  | .evaluated (.error f) => "enablement evaluated to error (" ++ f.message ++ ")"

end Note

/-- A question put to a tester, with its answer. -/
structure TesterCall where
  className : String
  property : String
  receiver : Value
  args : List Value
  expected : Option Value
  result : Bool

/-- Something that has happened. -/
inductive Event where
  /-- The host has made an object of a class. -/
  | created (className : String)
  | asked (call : TesterCall)
  /-- A leaf with a fixed outcome was evaluated. -/
  | fixed (label : Option String) (outcome : String) (receiver : Value)
  /-- A property was looked up; the lookup was forced or not. -/
  | lookedUp (key : PropertyKey) (force : Bool)
  /-- The host was asked for the object of the registration at a place of a type. -/
  | requested (typeName : String) (place : Nat)
  | noted (note : Note)

/-- An engine. -/
structure Engine where
  platform : Platform := {}
  options : Options := {}
  handlers : List Handler := [Standard.handler]
  registry : Registry := .empty options.capacity
  definitions : Definitions := {}
  journal : List Event := []

namespace Engine

/-- The converter of the engine, which links references to its definitions. -/
def converter (e : Engine) : Converter := { handlers := e.handlers, linked := true }

/-- Adds an event to the journal. -/
def record (e : Engine) (ev : Event) : Engine := { e with journal := e.journal ++ [ev] }

/-- Adds a log line. -/
def note (e : Engine) (n : Note) : Engine := e.record (.noted n)

/-- Adds a log line about lookups, if they are traced. -/
def noteResolving (e : Engine) (n : Note) : Engine :=
  if e.options.traceResolving then e.note n else e

/-- An engine with valid options. -/
def make (platform : Platform) (options : Options) (handlers : List Handler) :
    Except Fault Engine :=
  options.validate.map fun options => { platform, options, handlers }

end Engine

/-- A function of the engine that ends with a value or a fault. -/
def Act (α : Type) : Type := Engine → Except Fault α × Engine

namespace Act

variable {α β : Type}

/-- Ends with a value. -/
def pure (a : α) : Act α := fun e => (.ok a, e)

/-- Goes on with the value of an act, unless it has ended with a fault. -/
def bind (x : Act α) (f : α → Act β) : Act β := fun e =>
  match x e with
  | (.ok a, e') => f a e'
  | (.error f, e') => (.error f, e')

instance : Monad Act where
  pure := Act.pure
  bind := Act.bind

/-- Ends with a fault. -/
def fail (f : Fault) : Act α := fun e => (.error f, e)

/-- Ends as a result says. -/
def ofExcept (r : Except Fault α) : Act α := fun e => (r, e)

/-- A value read off the engine. -/
def read (f : Engine → α) : Act α := fun e => (.ok (f e), e)

/-- Changes the engine. -/
def change (f : Engine → Engine) : Act Unit := fun e => (.ok (), f e)

/-- Changes the engine by a function that cannot fail and gives a value. -/
def ofState (f : Engine → α × Engine) : Act α := fun e => (.ok (f e).1, (f e).2)

end Act

end Enablement

import Enablement.Convert.Hosted
import Enablement.Engine.Access
import Enablement.Engine.Meaning
import Enablement.Expr.Digest
import Enablement.Host.Catalog
import Enablement.Yaml.Reading
/-!
# Sessions — an engine, its scopes, and what was kept on the way

A session is a run of single steps on an engine and a stack of scopes. Expressions can be saved
under names, and there is a second cache of resolved properties that only steps use. Every step
ends with a reply or a fault.
-/

namespace Enablement

/-- The state of a session. -/
structure Session where
  engine : Engine
  scopes : ScopeTree
  saved : NameMap Expr := {}
  shelf : Recency PropertyKey Resolved := { capacity := 1 }

/-- Where a step takes an expression from. -/
inductive ExprSource where
  | saved (name : String)
  /-- An element that is converted, with references linked to the engine's definitions or not. -/
  | written (source : Element.Source) (linked : Bool)

/-- A step about scopes; the number is that of the scope. -/
inductive ScopeStep where
  /-- A frame over the newest scope, or without a parent. -/
  | pushFrame (nested : Bool) (frame : Frame)
  | pushRebound (value : Value)
  | pushStepping (value : Value)
  | pop
  | defaultVariable (k : Nat)
  | get (k : Nat) (name : String)
  | remove (k : Nat) (name : String)
  | set (k : Nat) (name : String) (value : Value)
  | resolve (k : Nat) (name : String) (args : List Value)
  | allow (k : Nat)
  | setAllow (k : Nat) (value : Bool)
  | parent (k : Nat)
  | root (k : Nat)
  | pool (k : Nat)
  | advance (k : Nat)

/-- A step about the platform. -/
inductive PlatformStep where
  | declareType (name : String) (supers : List String)
  | putAdapter (source target : String) (adapter : Adapter)
  | activate (contributor : String)
  | deactivate (contributor : String)
  | registerClass (name : String) (c : HostClass)
  | setProperty (name value : String)
  | removeProperty (name : String)
  | isSubtype (t super : String)
  | isInstance (value : Value) (t : String)
  | superTypes (t : String)
  | isActive (contributor : String)
  | property (name : String)
  | adapters (value : Value) (t : String)
  | create (contributor className : String)

/-- A step about testers. -/
inductive TesterStep where
  | add (ds : List Descriptor)
  | addFrom (source : Element.Source)
  | removeContributor (contributor : String)
  | changed
  | cache
  | resolve (value : Value) (namespaceName property : String) (force : Bool)
    (args : Option (List Value)) (expected : Option Value)
  | shelfNew (capacity : Nat)
  | shelfPut (value : Value) (namespaceName property : String)
  | shelfGet (key : PropertyKey)
  | shelfRemove (key : PropertyKey)
  | shelfClear

/-- A step about definitions. -/
inductive DefinitionStep where
  | addElement (source : Element.Source)
  | add (id : String) (source : Element.Source)
  | define (id : String) (x : ExprSource)
  | remove (id : String)
  | contains (id : String)
  | clear
  | list
  | expression (id : String)

/-- A step about expressions. -/
inductive ExprStep where
  | convert (x : ExprSource) (saveAs : Option String)
  | tryConvert (source : Element.Source)
  | evaluate (k : Nat) (x : ExprSource)
  | evaluateFresh (x : ExprSource) (value : Value)
  | access (x : ExprSource)
  | compare (a b : ExprSource)

/-- A step. -/
inductive Step where
  | scope (s : ScopeStep)
  | platform (s : PlatformStep)
  | tester (s : TesterStep)
  | definition (s : DefinitionStep)
  | expr (s : ExprStep)

/-- What is known of a resolved property. -/
structure ResolvedReport where
  resolved : Resolved
  active : Bool
  valid : Bool
  validForced : Bool
  /-- How many properties are cached. -/
  cached : Nat
  /-- The outcome of the question, if one was put. -/
  test : Option (Except Fault Bool)

/-- The reply to a step. -/
inductive Reply where
  | done
  | number (n : Nat)
  | flag (b : Bool)
  | value (v : Value)
  | optionalValue (v : Option Value)
  | optionalText (t : Option String)
  | names (l : List String)
  | outcome (t : Truth)
  | tree (x : Option Expr)
  | access (a : Access)
  | adapters (has : Bool) (get : Option Value) (status : AdapterStatus)
  /-- The host made an object. -/
  | created
  /-- The host refused, for the reason given. -/
  | refused (message : String)
  | cache (size capacity : Nat)
  | resolved (r : ResolvedReport)
  | shelf (size : Nat)
  | definitions (ids : List String) (isEmpty : Bool)
  /-- Whether two expressions are equal, and whether that agrees with their hash codes. -/
  | comparison (equal codesAgree : Bool)

namespace Session

/-- The end of a step. -/
abbrev Outcome := Except Fault Reply × Session

/-- The number of the newest scope. -/
def top (s : Session) : Nat := s.scopes.entries.length - 1

def context (s : Session) (k : Nat) : Context := s.scopes.context k

/-- Ends a step by an act of the engine. -/
def act (s : Session) (a : Act Reply) : Outcome :=
  let (r, engine) := a s.engine
  (r, { s with engine })

/-- Ends a step with a reply read off the session. -/
def reply (s : Session) (r : Reply) : Outcome := (.ok r, s)

/-- The expression of a source. -/
def fetch (s : Session) : ExprSource → Act Expr
  | .saved name =>
    match s.saved.find? name with
    | some x => pure x
    | none => Act.fail (.missingExpression (.stated name))
  | .written source linked => do
    let element ← Act.ofExcept source.read
    Engine.convert linked element.toNode

/-! ## Scopes -/

def pushScope (s : Session) (parent : Option Nat) (scope : Scope) : Outcome :=
  let (scopes, k) := s.scopes.push parent scope
  (.ok (.number k), { s with scopes })

def performScope (s : Session) : ScopeStep → Outcome
  | .pushFrame nested f => s.pushScope (if nested then some s.top else none) (.frame f)
  | .pushRebound v => s.pushScope (some s.top) (.rebound v)
  | .pushStepping v => s.pushScope (some s.top) (.stepping .null (v.elements?.getD []))
  | .pop =>
    let s := { s with scopes := s.scopes.pop }
    s.reply (.number s.top)
  | .defaultVariable k => s.reply (.value (Context.defaultVariable (s.context k)))
  | .get k name => s.reply (.optionalValue (s.scopes.binding? k name))
  | .remove k name =>
    let (scopes, v) := s.scopes.removeVariable k name
    (.ok (.optionalValue v), { s with scopes })
  | .set k name v => { s with scopes := s.scopes.setVariable k name v }.reply .done
  | .resolve k name args =>
    ((s.scopes.resolve k name args).map .optionalValue, s)
  | .allow k => s.reply (.flag (s.scopes.allowActivation k))
  | .setAllow k b => { s with scopes := s.scopes.setAllowActivation k b }.reply .done
  | .parent k => s.reply (.optionalValue (s.scopes.parentDefault? k))
  | .root k => s.reply (.value (Context.defaultVariable (Context.root (s.context k))))
  | .pool k => s.reply (.value (Context.defaultVariable (s.context (s.scopes.pool k))))
  | .advance k =>
    let (scopes, moved) := s.scopes.advance k
    (.ok (.flag moved), { s with scopes })

/-! ## The platform -/

/-- Changes the platform. -/
def changePlatform (s : Session) (f : Platform → Platform) : Outcome :=
  { s with engine := { s.engine with platform := f s.engine.platform } }.reply .done

def performPlatform (s : Session) : PlatformStep → Outcome
  | .declareType t supers => s.changePlatform (·.declareType t supers)
  | .putAdapter source target a => s.changePlatform (·.putAdapter source target a)
  | .activate c => s.changePlatform (·.activate c)
  | .deactivate c => s.changePlatform (·.deactivate c)
  | .registerClass name c => s.changePlatform (·.registerClass name c)
  | .setProperty name v => s.changePlatform (·.setProperty name v)
  | .removeProperty name => s.changePlatform (·.removeProperty name)
  | .isSubtype t super => s.reply (.flag (s.engine.platform.isSubtype t super))
  | .isInstance v t => s.reply (.flag (s.engine.platform.isInstance v t))
  | .superTypes t => s.reply (.names (s.engine.platform.superTypes t))
  | .isActive c => s.reply (.flag (s.engine.platform.isActive c))
  | .property name => s.reply (.optionalText (s.engine.platform.property? name))
  | .adapters v t =>
    let p := s.engine.platform
    s.reply (.adapters (p.hasAdapter v t) (p.adapt? v t) (p.adapterStatus v t))
  | .create contributor className =>
    match Engine.createObject className contributor s.engine with
    | (.ok _, engine) => (.ok .created, { s with engine })
    | (.error _, engine) =>
      (.ok (.refused (classNotFoundMessage className contributor)), { s with engine })

/-! ## Testers -/

/-- What is known of a resolved property, after a question about it if one is to be put. -/
def report (r : Resolved) (value : Value) (args : Option (List Value)) (expected : Option Value) :
    Act Reply := fun e =>
  let cached := e.registry.cache.size
  let active := r.handle.isActive e.platform
  let valid := r.isValid e.platform false
  let validForced := r.isValid e.platform true
  match args with
  | none =>
    (.ok (.resolved { resolved := r, active, valid, validForced, cached, test := none }), e)
  | some args =>
    let (answer, e) := Engine.ask r value args expected e
    (.ok (.resolved { resolved := r, active, valid, validForced, cached, test := some answer }), e)

def performTester (s : Session) : TesterStep → Outcome
  | .add ds => { s with engine := Engine.addTesters ds s.engine }.reply .done
  | .addFrom source => s.act do
    let element ← Act.ofExcept source.read
    return .number (← Engine.addTestersFrom element.toNode)
  | .removeContributor c => s.act do
    return .number (← Act.ofState (Engine.removeContributor c))
  | .changed => { s with engine := Engine.registryChanged s.engine }.reply .done
  | .cache =>
    let cache := s.engine.registry.cache
    s.reply (.cache cache.size cache.capacity)
  | .resolve v namespaceName property force args expected => s.act do
    let r ← Engine.resolve v namespaceName property force
    report r v args expected
  | .shelfNew capacity => { s with shelf := { capacity } }.reply .done
  | .shelfPut v namespaceName property =>
    match Engine.resolve v namespaceName property false s.engine with
    | (.ok r, engine) =>
      let shelf := s.shelf.put r.key r
      (.ok (.number shelf.size), { s with engine, shelf })
    | (.error f, engine) => (.error f, { s with engine })
  | .shelfGet key =>
    let (r, shelf) := s.shelf.get key
    (.ok (.optionalText (r.map (·.handle.descriptor.id))), { s with shelf })
  | .shelfRemove key =>
    let s := { s with shelf := s.shelf.remove key }
    s.reply (.shelf s.shelf.size)
  | .shelfClear =>
    let s := { s with shelf := s.shelf.clear }
    s.reply (.shelf s.shelf.size)

/-! ## Definitions -/

/-- Changes the definitions. -/
def changeDefinitions (f : Definitions → Definitions) : Act Unit :=
  Act.change fun e => { e with definitions := f e.definitions }

def performDefinition (s : Session) : DefinitionStep → Outcome
  | .addElement source => s.act do
    let element ← Act.ofExcept source.read
    let definitions ← Act.read (·.definitions.addDefinition element)
    let definitions ← Act.ofExcept definitions
    changeDefinitions fun _ => definitions
    return .done
  | .add id source => s.act do
    let element ← Act.ofExcept source.read
    changeDefinitions (·.addElement id element)
    return .done
  | .define id x => s.act do
    let x ← s.fetch x
    changeDefinitions (·.define id x)
    return .done
  | .remove id =>
    let (definitions, found) := s.engine.definitions.remove id
    { s with engine := { s.engine with definitions } }.reply (.flag found)
  | .contains id => s.reply (.flag (s.engine.definitions.contains id))
  | .clear =>
    { s with engine := { s.engine with definitions := s.engine.definitions.clear } }.reply .done
  | .list => s.reply (.definitions s.engine.definitions.ids s.engine.definitions.isEmpty)
  | .expression id => s.act do
    return .tree (some (← Engine.definition id))

/-! ## Expressions -/

/-- Whether equal expressions have equal hash codes. -/
def codesAgree (a b : Expr) : Bool :=
  !(a == b) || a.code Atom.hasher == b.code Atom.hasher

def performExpr (s : Session) : ExprStep → Outcome
  | .convert x saveAs =>
    match s.fetch x s.engine with
    | (.ok x, engine) =>
      let saved := match saveAs with
        | some name => s.saved.insert name x
        | none => s.saved
      (.ok (.tree (some x)), { s with engine, saved })
    | (.error f, engine) => (.error f, { s with engine })
  | .tryConvert source => s.act do
    let element ← Act.ofExcept source.read
    return .tree (← Engine.convert? element.toNode)
  | .evaluate k x => s.act do
    let x ← s.fetch x
    return .outcome (← Engine.evaluate x (s.context k))
  | .evaluateFresh x v => s.act do
    let x ← s.fetch x
    return .outcome (← Engine.evaluate x [.frame { defaultVariable := v }])
  | .access x => s.act do
    let x ← s.fetch x
    return .access (← Act.ofState (Engine.access x))
  | .compare a b => s.act do
    let a ← s.fetch a
    let b ← s.fetch b
    return .comparison (a == b) (codesAgree a b)

/-- Performs a step. -/
def perform (s : Session) : Step → Outcome
  | .scope step => s.performScope step
  | .platform step => s.performPlatform step
  | .tester step => s.performTester step
  | .definition step => s.performDefinition step
  | .expr step => s.performExpr step

/-- Performs a step on an empty journal, so that the journal afterwards is that of the step. -/
def performNoted (s : Session) (step : Step) : Outcome :=
  { s with engine := { s.engine with journal := [] } }.perform step

end Session

end Enablement

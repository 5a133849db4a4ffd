import Enablement.Number.Digits
/-!
# Faults — why a condition cannot be built or evaluated

Each fault is named by its cause. Its message and its stable numeric status are functions of the
cause.
-/

namespace Enablement

/-- A reason why no expression could be made of an element. -/
inductive NoExpression where
  /-- No handler knows the element. -/
  | unhandled (element : String)
  /-- A negation has a number of children other than one. -/
  | notOneChild (found : Nat)
  /-- A definition has no child. -/
  | emptyDefinition (id : String)
  /-- A handler of the host gives its own reason. -/
  | stated (text : String)
  deriving DecidableEq, Repr

/-- Why options cannot be used. -/
inductive BadOptions where
  | zeroCapacity
  /-- The text is no options document. -/
  | unreadable
  deriving DecidableEq, Repr

/-- A fault of reading, converting or evaluating. -/
inductive Fault where
  | missingAttribute (element attr : String)
  | wrongAttributeValue (attr value : String) (expected : List String)
  | missingExpression (why : NoExpression)
  | noNamespace (property : String)
  | notEscaped (text : String)
  | notTerminated (text : String)
  | variableNotDefined (name : String)
  | variableNotResolved (name : String)
  | notACollection (typeName : String)
  | unknownProperty (namespaceName property typeName : String)
  | testerNotLoaded (id : String)
  | notATester (className contributor : String)
  /-- The host knows no class of that name. -/
  | classNotFound (className contributor : String)
  | definitionNotFound (id : String)
  | invalidOptions (why : BadOptions)
  | invalidDocument
  /-- A definition was reached again through its own references. -/
  | circularDefinition (id : String)
  deriving DecidableEq, Repr

namespace NoExpression

/-- The reason in words. -/
def message : NoExpression → String
  | .unhandled element => "no expression handler for element <" ++ element ++ ">"
  | .notOneChild found => "<not> requires exactly one child, found "
    ++ String.ofList (Digits.natDigits found)
  | .emptyDefinition id => "definition '" ++ id ++ "' has no expression"
  | .stated text => text

end NoExpression

/-- What a host says when it is asked for a class that it does not know. -/
def classNotFoundMessage (className contributor : String) : String :=
  "class '" ++ className ++ "' not found in '" ++ contributor ++ "'"

namespace Fault

/-- The numeric status, stable for hosts that match on it. -/
def status : Fault → Nat
  | .notACollection _ => 3
  | .missingAttribute _ _ => 50
  | .wrongAttributeValue _ _ _ => 51
  | .missingExpression _ => 52
  | .testerNotLoaded _ => 200
  | .unknownProperty _ _ _ => 201
  | .notATester _ _ => 202
  | .noNamespace _ => 300
  | .variableNotDefined _ => 301
  | .variableNotResolved _ => 301
  | .notEscaped _ => 302
  | .notTerminated _ => 303
  | .definitionNotFound _ => 400
  | .classNotFound _ _ => 401
  | .circularDefinition _ => 402
  | .invalidOptions _ => 500
  | .invalidDocument => 501

/-- The fault in words; a text that could not be read has no words of its own. -/
def message? : Fault → Option String
  | .missingAttribute element attr =>
    some ("missing attribute '" ++ attr ++ "' on element <" ++ element ++ ">")
  | .wrongAttributeValue attr value expected =>
    some ("attribute '" ++ attr ++ "' has invalid value '" ++ value
      ++ "' (expected one of: " ++ ", ".intercalate expected ++ ")")
  | .missingExpression why => some why.message
  | .noNamespace property => some ("no namespace provided for property '" ++ property ++ "'")
  | .notEscaped text => some ("string '" ++ text ++ "' is not correctly escaped")
  | .notTerminated text => some ("string '" ++ text ++ "' is not terminated")
  | .variableNotDefined name => some ("variable '" ++ name ++ "' is not defined")
  | .variableNotResolved name => some ("variable '" ++ name ++ "' could not be resolved")
  | .notACollection typeName =>
    some ("variable of type '" ++ typeName ++ "' is not a collection")
  | .unknownProperty namespaceName property typeName =>
    some ("no property tester contributes property '" ++ namespaceName ++ "." ++ property
      ++ "' to type '" ++ typeName ++ "'")
  | .testerNotLoaded id => some ("property tester '" ++ id ++ "' is not instantiated")
  | .notATester className contributor =>
    some ("class '" ++ className ++ "' contributed by '" ++ contributor
      ++ "' is not a property tester")
  | .classNotFound className contributor =>
    some ("could not create '" ++ className ++ "' contributed by '" ++ contributor ++ "': "
      ++ classNotFoundMessage className contributor)
  | .definitionNotFound id => some ("no expression definition with id '" ++ id ++ "'")
  | .invalidOptions .zeroCapacity =>
    some "invalid options: property_cache_capacity must be greater than zero"
  | .invalidOptions .unreadable => none
  | .invalidDocument => none
  | .circularDefinition id => some ("definition '" ++ id ++ "' refers to itself")

/-- The fault in words, or nothing. -/
def message (f : Fault) : String := f.message?.getD ""

end Fault

end Enablement

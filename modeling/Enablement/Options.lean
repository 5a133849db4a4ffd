import Enablement.Fault
import Enablement.Json.Printer
import Enablement.Json.Reader
/-!
# Options

Tuning of an engine: the capacity of the property cache, which must not be zero, and two switches
for tracing. An options document has any of the three members, or the leading ones in an array.
-/

namespace Enablement

/-- The options of an engine. -/
structure Options where
  capacity : Nat := 1000
  /-- Log cache hits, misses and instantiations. -/
  traceResolving : Bool := false
  /-- Log the outcome of every enablement. -/
  traceEvaluation : Bool := false
  deriving DecidableEq, Repr, Inhabited

namespace Options

def capacityName : String := "property_cache_capacity"

def traceResolvingName : String := "trace_property_resolving"

def traceEvaluationName : String := "trace_evaluation"

/-- Accepts options whose capacity is not zero. -/
def validate (o : Options) : Except Fault Options :=
  if o.capacity = 0 then .error (.invalidOptions .zeroCapacity) else .ok o

/-- The capacity that a document gives. -/
def capacityOf? : Json → Option Nat
  | .num (.int n) => if 0 ≤ n then some n.toNat else none
  | _ => none

def flagOf? : Json → Option Bool
  | .bool b => some b
  | _ => none

/-- The members that have been read so far. -/
structure Draft where
  capacity : Option Nat := none
  traceResolving : Option Bool := none
  traceEvaluation : Option Bool := none

/-- Fills in what was not given. -/
def Draft.finish (d : Draft) : Options where
  capacity := d.capacity.getD 1000
  traceResolving := d.traceResolving.getD false
  traceEvaluation := d.traceEvaluation.getD false

/-- Reads members in order; one that is unknown, repeated or malformed is refused. -/
def draftOf? (d : Draft) : List (String × Json) → Option Draft
  | [] => some d
  | (key, value) :: rest =>
    if key = capacityName then
      match d.capacity, capacityOf? value with
      | none, some n => draftOf? { d with capacity := some n } rest
      | _, _ => none
    else if key = traceResolvingName then
      match d.traceResolving, flagOf? value with
      | none, some b => draftOf? { d with traceResolving := some b } rest
      | _, _ => none
    else if key = traceEvaluationName then
      match d.traceEvaluation, flagOf? value with
      | none, some b => draftOf? { d with traceEvaluation := some b } rest
      | _, _ => none
    else none

/-- The options of a document, not yet validated. -/
def ofJson? : Json → Option Options
  | .obj members => (draftOf? {} members).map Draft.finish
  | .arr [] => some {}
  | .arr [c] => do return { capacity := ← capacityOf? c }
  | .arr [c, r] => do return { capacity := ← capacityOf? c, traceResolving := ← flagOf? r }
  | .arr [c, r, e] => do
    return { capacity := ← capacityOf? c, traceResolving := ← flagOf? r,
             traceEvaluation := ← flagOf? e }
  | _ => none

/-- Valid options, if there are any. -/
def accept (o : Option Options) : Except Fault Options :=
  match o with
  | some o => o.validate
  | none => .error (.invalidOptions .unreadable)

/-- The valid options that a text is a document of. -/
def read (text : String) : Except Fault Options :=
  accept ((Json.read? text).bind ofJson?)

/-- The options as a document. -/
def toJson (o : Options) : Json :=
  .obj [(capacityName, .num (.int o.capacity)), (traceResolvingName, .bool o.traceResolving),
    (traceEvaluationName, .bool o.traceEvaluation)]

end Options

end Enablement

/-!
# Truth — three-valued outcomes

A condition is true, false, or cannot be decided yet because something it asks about has not been
loaded. The connectives are Kleene's: an undecided operand stays undecided unless the other one
settles the outcome alone.
-/

namespace Enablement

/-- The outcome of evaluating a condition. -/
inductive Truth where
  | no
  | yes
  /-- Something the answer depends on has not been loaded. -/
  | notLoaded
  deriving DecidableEq, Repr, Inhabited

namespace Truth

/-- A falsity settles a conjunction. -/
def and : Truth → Truth → Truth
  | .no, _ => .no
  | _, .no => .no
  | .yes, .yes => .yes
  | _, _ => .notLoaded

/-- A truth settles a disjunction. -/
def or : Truth → Truth → Truth
  | .yes, _ => .yes
  | _, .yes => .yes
  | .no, .no => .no
  | _, _ => .notLoaded

/-- Negation leaves the undecided undecided. -/
def not : Truth → Truth
  | .no => .yes
  | .yes => .no
  | .notLoaded => .notLoaded

/-- A decided outcome. -/
def ofBool : Bool → Truth
  | true => .yes
  | false => .no

/-- The word a log line uses for an outcome. -/
def text : Truth → String
  | .no => "false"
  | .yes => "true"
  | .notLoaded => "not_loaded"

/-- The outcome a document names, if it names one. -/
def ofName? : String → Option Truth
  | "TRUE" => some .yes
  | "FALSE" => some .no
  | "NOT_LOADED" => some .notLoaded
  | _ => none

/-- The name of an outcome in documents and answers. -/
def name : Truth → String
  | .no => "FALSE"
  | .yes => "TRUE"
  | .notLoaded => "NOT_LOADED"

theorem ofBool_inj {b c : Bool} (h : ofBool b = ofBool c) : b = c := by
  cases b <;> cases c <;> first | rfl | cases h

/-- De Morgan's law for the three-valued connectives. -/
theorem not_and (a b : Truth) : (a.and b).not = a.not.or b.not := by
  cases a <;> cases b <;> rfl

theorem not_or (a b : Truth) : (a.or b).not = a.not.and b.not := by
  cases a <;> cases b <;> rfl

@[simp] theorem not_not (a : Truth) : a.not.not = a := by
  cases a <;> rfl

end Truth

end Enablement

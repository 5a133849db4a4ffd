import Enablement.Number.Text
/-!
# Documents — trees of JSON

A document keeps the members of an object as they stand, repeated keys included; what a repeated key
means is for the reader of the object to say. Numbers are whole numbers or binary64 numbers, as they
were written.
-/

namespace Enablement

/-- A number of a document. -/
inductive Json.Num where
  | int (n : Int)
  | float (x : Binary64)
  deriving DecidableEq, Repr

/-- A document. -/
inductive Json where
  | null
  | bool (b : Bool)
  | num (n : Json.Num)
  | str (s : String)
  | arr (items : List Json)
  | obj (members : List (String × Json))
  deriving Repr, Inhabited

namespace Json

/-- The value of a member; of a repeated key the last one stands. -/
def member? (key : String) : List (String × Json) → Option Json
  | [] => none
  | (k, v) :: rest =>
    match member? key rest with
    | some w => some w
    | none => if k = key then some v else none

/-- The value of a member of an object. -/
def get? (key : String) : Json → Option Json
  | .obj members => member? key members
  | _ => none

end Json

end Enablement

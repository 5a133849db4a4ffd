import Enablement.Json.Printer
import Enablement.Json.Reader
import Enablement.Value.Order
/-!
# Values as documents

A value is displayed as a compact document. What documents cannot hold is shown by the nearest thing
they can: a set as an array, a number that is not finite as null, a type or a host object as its
name in angle brackets, a key that is no string as its own text. Reading a document gives a value in
which a repeated key has its last value.
-/

namespace Enablement

namespace Number

/-- The number as a document; canonical, so that integral numbers have no point. -/
def toJson (n : Number) : Json :=
  match n.canonical with
  | .int i => .num (.int i.toInt)
  | .float x => if x.isFinite then .num (.float x) else .null

/-- The number of a document. -/
def ofJson : Json.Num → Number
  | .int n => .ofInt n
  | .float x => .float x

end Number

namespace Value

mutual

/-- The value as a document. -/
def toJson : Value → Json
  | .null => .null
  | .bool b => .bool b
  | .number n => n.toJson
  | .string s => .str s
  | .array items => .arr (itemsToJson items)
  | .set members => .arr (itemsToJson members)
  | .object entries => .obj (entriesToJson entries)
  | .type name => .str ("<type " ++ name ++ ">")
  | .host ref => .str ("<" ++ ref.typeName ++ ">")
  | .undefined => .str "<undefined>"

def itemsToJson : List Value → List Json
  | [] => []
  | v :: rest => toJson v :: itemsToJson rest

def entriesToJson : List (Value × Value) → List (String × Json)
  | [] => []
  | (.string s, v) :: rest => (s, toJson v) :: entriesToJson rest
  | (k, v) :: rest => ((toJson k).text, toJson v) :: entriesToJson rest

end

/-- The compact text of a value. -/
def display (v : Value) : String := v.toJson.text

mutual

/-- The value of a document. -/
def ofJson : Json → Value
  | .null => .null
  | .bool b => .bool b
  | .num n => .number (.ofJson n)
  | .str s => .string s
  | .arr items => .array (itemsOfJson items)
  | .obj members => objectOf (entriesOfJson members)

def itemsOfJson : List Json → List Value
  | [] => []
  | j :: rest => ofJson j :: itemsOfJson rest

def entriesOfJson : List (String × Json) → List (Value × Value)
  | [] => []
  | (k, j) :: rest => (.string k, ofJson j) :: entriesOfJson rest

end

/-- The value that a text is a document of. -/
def read? (text : String) : Option Value := (Json.read? text).map ofJson

end Value

end Enablement

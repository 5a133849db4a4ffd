import Enablement.Platform
import Enablement.Scope
import Enablement.Text.Commas
/-!
# A catalogue for hosts

Ready-made testers, adapters and resolvers, by name.
-/

namespace Enablement.Catalog

/-! ## Testers -/

/-- Whether an expected value is given and equals another. -/
def expects (expected : Option Value) (v : Value) : Bool := expected.any (· == v)

/-- Whether a text begins with another. -/
def startsWith (text part : String) : Bool := part.toList.isPrefixOf text.toList

/-- Whether a text ends with another. -/
def endsWith (text part : String) : Bool := part.toList.reverse.isPrefixOf text.toList.reverse

/-- Whether the first argument is a string with which something holds. -/
def firstString (args : List Value) (p : String → Bool) : Bool :=
  match args with
  | .string s :: _ => p s
  | _ => false

/-- Asks about the text of strings. The length must be the expected value. The other properties
yield a boolean, which must be the expected value if there is one. -/
def stringTester : Tester := fun receiver property args expected =>
  match receiver with
  | .string s =>
    if property = "length" then expects expected (.ofNat s.length)
    else
      let holds :=
        if property = "isEmpty" then s.isEmpty
        else if property = "startsWith" then firstString args (startsWith s)
        else if property = "endsWith" then firstString args (endsWith s)
        else false
      match expected with
      | some v => v == .bool holds
      | none => holds
  | _ => false

/-- Asks about numbers. -/
def numberTester : Tester := fun receiver property args _ =>
  match receiver with
  | .number n =>
    if property = "even" then n.toInt64?.any (fun i => i.toInt % 2 == 0)
    else if property = "greaterThan" then
      match args with
      | .number m :: _ => Number.compare m n == .lt
      | _ => false
    else false
  | _ => false

/-- The class of a kind of testers, or of objects that are none. -/
def hostClass? : String → Option HostClass
  | "true" => some (.tester fun _ _ _ _ => true)
  | "false" => some (.tester fun _ _ _ _ => false)
  | "expect" => some (.tester fun receiver _ _ expected => expects expected receiver)
  | "args" => some (.tester fun receiver _ args _ => args.head?.any (· == receiver))
  | "number" => some (.tester numberTester)
  | "string" => some (.tester stringTester)
  | "not_a_tester" => some .other
  | _ => none

/-- The classes that are known from the start. -/
def classes : NameMap HostClass :=
  NameMap.ofList ([("StringTester", "string"), ("NumberTester", "number"),
    ("ExpectTester", "expect"), ("ArgsTester", "args"), ("TrueTester", "true"),
    ("FalseTester", "false"), ("NotATester", "not_a_tester")].filterMap
      (fun e => (hostClass? e.2).map (e.1, ·)))

/-! ## Adapters -/

/-- An adapter by the name of its kind. Without a name it is only declared. The items of host
objects are looked up by identity. -/
def adapter? (items : NameMap Value) (kind : Option String) (value : Value) : Option Adapter :=
  match kind with
  | none => some .declared
  | some "uppercase" => some (.loaded fun v => v.string?.map fun s =>
      .string (String.ofList (s.toList.map Binary64.upperAscii)))
  | some "split" => some (.loaded fun v => v.string?.map fun s =>
      .array ((Commas.split s.toList).map (fun p => .string (String.ofList p))))
  | some "items" => some (.loaded fun v =>
      match v with
      | .host ref => items.find? ref.id
      | _ => none)
  | some "wrap" => some (.loaded fun v => some (.array [v]))
  | some "none" => some (.loaded fun _ => none)
  | some "const" => some (.loaded fun _ => some value)
  | some _ => none

/-! ## Resolvers -/

/-- What a resolver of a kind answers for a name and arguments. -/
def answer? (kind : String) (value : Value) : Option Resolver :=
  match kind with
  | "echo" => some fun _ args => .ok (some (args.headD .null))
  | "args" => some fun _ args => .ok (some (.array args))
  | "count" => some fun _ args => .ok (some (.ofNat args.length))
  | "const" => some fun _ _ => .ok (some value)
  | "none" => some fun _ _ => .ok none
  | "fail" => some fun asked _ => .error (.variableNotDefined (asked ++ "!"))
  | _ => none

/-- A resolver that answers for one name, or for every name if that is a star. -/
def resolver? (name kind : String) (value : Value) : Option Resolver :=
  (answer? kind value).map fun answer asked args =>
    if name = "*" ∨ name = asked then answer asked args else .ok none

end Enablement.Catalog

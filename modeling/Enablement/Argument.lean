import Enablement.Fault
import Enablement.Text.Blank
import Enablement.Text.Quoted
import Enablement.Value.Basic
/-!
# Arguments — literals and lists of literals

A literal is a quoted string, a boolean, a number with a point, an integer of 32 bits, or else a
string as it stands. A list of arguments is cut at the commas outside of quotes, and the blanks
around each piece are trimmed. A piece that ends at a comma is converted before anything behind it
is looked at, so its fault comes before that of a quote left open.
-/

namespace Enablement.Argument

/-- The text between the quotes of a quoted literal. -/
def quotedBody? : List Char → Option (List Char)
  | '\'' :: c :: r => if (c :: r).getLast? = some '\'' then some (c :: r).dropLast else none
  | _ => none

/-- Reads the text of a quoted literal. -/
def unescape (cs : List Char) : Except Fault String :=
  match Quoted.unescape? cs with
  | some r => .ok (String.ofList r)
  | none => .error (.notEscaped (String.ofList cs))

/-- The value of a literal that is not quoted. -/
def plain (cs : List Char) : Value :=
  if cs = "true".toList then .bool true
  else if cs = "false".toList then .bool false
  else if '.' ∈ cs then
    match Binary64.read? cs with
    | some x => .number (.float x)
    | none => .string (String.ofList cs)
  else
    match Digits.readInt32? cs with
    | some n => .number (.ofInt n)
    | none => .string (String.ofList cs)

/-- The value of a literal. -/
def convert (cs : List Char) : Except Fault Value :=
  match quotedBody? cs with
  | some body => (unescape body).map .string
  | none => .ok (plain cs)

/-! ## Lists -/

/-- A list of arguments in pieces. -/
structure Pieces where
  /-- The pieces that end at a comma. -/
  closed : List (List Char)
  /-- What follows the last comma that cuts. -/
  last : List Char
  /-- Whether the text ends inside quotes. -/
  isOpen : Bool
  deriving DecidableEq, Repr

/-- Puts a character in front of the first piece. -/
def Pieces.cons (c : Char) (p : Pieces) : Pieces :=
  match p.closed with
  | [] => { p with last := c :: p.last }
  | q :: qs => { p with closed := (c :: q) :: qs }

/-- Cuts a text at the commas outside of quotes. Inside quotes, two quotes in a row do not end the
string. -/
def cut : (quoted : Bool) → List Char → Pieces
  | quoted, [] => ⟨[], [], quoted⟩
  | false, c :: r =>
    if c = ',' then { cut false r with closed := [] :: (cut false r).closed }
    else (cut (c == '\'') r).cons c
  | true, '\'' :: '\'' :: r => ((cut true r).cons '\'').cons '\''
  | true, c :: r => (cut (c != '\'') r).cons c

/-- The values of a list of arguments. -/
def parse (text : String) : Except Fault (List Value) := do
  let pieces := cut false text.toList
  let closed ← pieces.closed.mapM fun p => convert (Blank.trim p)
  if pieces.isOpen then throw (.notTerminated text)
  let last ← convert (Blank.trim pieces.last)
  return closed ++ [last]

end Enablement.Argument

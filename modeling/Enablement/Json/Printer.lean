import Enablement.Json.Basic
/-!
# Document text — the compact form

No spaces; in strings only quotes, backslashes and control characters below the space are escaped;
numbers that are not finite are written as null.
-/

namespace Enablement.Json

open Digits

/-- The digit of a number below sixteen, in lower case. -/
def hexDigit (d : Nat) : Char := if d < 10 then Char.ofNat (48 + d) else Char.ofNat (87 + d)

/-- The written form of one character inside a string. -/
def escapeChar (c : Char) : List Char :=
  if c = '"' then ['\\', '"']
  else if c = '\\' then ['\\', '\\']
  else if c.toNat = 8 then ['\\', 'b']
  else if c.toNat = 9 then ['\\', 't']
  else if c.toNat = 10 then ['\\', 'n']
  else if c.toNat = 12 then ['\\', 'f']
  else if c.toNat = 13 then ['\\', 'r']
  else if c.toNat < 32 then ['\\', 'u', '0', '0', hexDigit (c.toNat / 16), hexDigit (c.toNat % 16)]
  else [c]

/-- A string between double quotes. -/
def renderString (s : String) : List Char :=
  '"' :: (s.toList.flatMap escapeChar ++ ['"'])

/-- A number; one that is not finite has no form of its own. -/
def renderNum : Num → List Char
  | .int n => intDigits n
  | .float x => if x.isFinite then x.documentText else "null".toList

/-- Puts commas between written parts. -/
def commas : List (List Char) → List Char
  | [] => []
  | [p] => p
  | p :: q :: rest => p ++ ',' :: commas (q :: rest)

mutual

/-- The compact text of a document. -/
def render : Json → List Char
  | .null => "null".toList
  | .bool true => "true".toList
  | .bool false => "false".toList
  | .num n => renderNum n
  | .str s => renderString s
  | .arr items => '[' :: (commas (renderItems items) ++ [']'])
  | .obj members => '{' :: (commas (renderMembers members) ++ ['}'])

def renderItems : List Json → List (List Char)
  | [] => []
  | x :: rest => render x :: renderItems rest

def renderMembers : List (String × Json) → List (List Char)
  | [] => []
  | (k, v) :: rest => (renderString k ++ ':' :: render v) :: renderMembers rest

end

/-- The compact text of a document, as a string. -/
def text (j : Json) : String := String.ofList (render j)

end Enablement.Json

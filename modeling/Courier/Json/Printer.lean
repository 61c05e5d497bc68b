import Courier.Json.Value

/-!
The compact text of a JSON value.

Nothing is written between tokens.  Strings escape the quote, the backslash and the controls below
`0x20`, and write every other character as it is; objects are written in the order of their members,
which is ascending in a `Value`.
-/

namespace Courier.Json

/-- The hexadecimal digit of a number below sixteen. -/
def hexDigit (n : Nat) : Char :=
  if n < 10 then Char.ofNat ('0'.toNat + n) else Char.ofNat ('a'.toNat + (n - 10))

/-- A character as it is written inside a string. -/
def escapeChar (c : Char) : List Char :=
  if c = '"' then ['\\', '"']
  else if c = '\\' then ['\\', '\\']
  else if c = '\n' then ['\\', 'n']
  else if c = '\r' then ['\\', 'r']
  else if c = '\t' then ['\\', 't']
  else if c = '\x08' then ['\\', 'b']
  else if c = '\x0c' then ['\\', 'f']
  else if c.toNat < 0x20 then
    ['\\', 'u', '0', '0', hexDigit (c.toNat / 16), hexDigit (c.toNat % 16)]
  else [c]

/-- A string between quotes. -/
def printString (s : String) : List Char := '"' :: (s.toList.flatMap escapeChar ++ ['"'])

/-- A number: whole numbers by their digits, doubles by their shortest text. -/
def Number.print : Number → List Char
  | .whole n => (toString n).toList
  | .real x => x.text.toList

/-- Texts with commas between them. -/
def commaSeparated : List (List Char) → List Char
  | [] => []
  | [t] => t
  | t :: ts => t ++ ',' :: commaSeparated ts

/-- A member: its key, a colon and the text of its value. -/
def printMember (key : String) (value : List Char) : List Char := printString key ++ ':' :: value

/-- The text of an object from its members' keys and the texts of their values, in this order. -/
def printObject (members : List (String × List Char)) : List Char :=
  '{' :: (commaSeparated (members.map fun (k, t) => printMember k t) ++ ['}'])

/-- The compact text of a value. -/
def Value.print : Value → List Char
  | .null => ['n', 'u', 'l', 'l']
  | .bool true => ['t', 'r', 'u', 'e']
  | .bool false => ['f', 'a', 'l', 's', 'e']
  | .number n => n.print
  | .string s => printString s
  | .array items => '[' :: (commaSeparated (printItems items) ++ [']'])
  | .object members => printObject (printMembers members)
where
  printItems : List Value → List (List Char)
    | [] => []
    | v :: vs => print v :: printItems vs
  printMembers : List (String × Value) → List (String × List Char)
    | [] => []
    | (k, v) :: ms => (k, print v) :: printMembers ms

/-- The compact text of a value. -/
def Value.text (v : Value) : String := String.ofList v.print

end Courier.Json

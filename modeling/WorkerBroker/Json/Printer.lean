import WorkerBroker.Json.Shortest
import WorkerBroker.Json.Value
import WorkerBroker.Text.Utf8
/-!
# JSON text

`Json.text` is the compact text of a value: no blanks, members in the order of the table,
integers in decimal, floats as their shortest decimal. A string escapes the quote, the
backslash and the controls below U+0020, and nothing else.
-/

namespace WorkerBroker

/-- A hexadecimal digit in lower case. -/
def hexDigit (n : Nat) : Char :=
  Nat.digitChar n

/-- One character of a string as it is written between quotes. -/
def escapedChar (c : Char) : List Char :=
  if c = '"' then ['\\', '"']
  else if c = '\\' then ['\\', '\\']
  else if c.toNat = 8 then ['\\', 'b']
  else if c.toNat = 9 then ['\\', 't']
  else if c.toNat = 10 then ['\\', 'n']
  else if c.toNat = 12 then ['\\', 'f']
  else if c.toNat = 13 then ['\\', 'r']
  else if c.toNat < 0x20 then
    ['\\', 'u', '0', '0', hexDigit (c.toNat / 16), hexDigit (c.toNat % 16)]
  else [c]

/-- A string between quotes. -/
def quoted (s : String) : List Char :=
  '"' :: s.toList.flatMap escapedChar ++ ['"']

/-- The text of a number. -/
def JsonNumber.chars : JsonNumber → List Char
  | .int n => integerText n
  | .float bits => floatText jsonStyle bits

/-- Pieces with commas between them. -/
def commaSeparated : List (List Char) → List Char
  | [] => []
  | [p] => p
  | p :: ps => p ++ ',' :: commaSeparated ps

/-- The text of an array from the texts of its items. -/
def arrayText (items : List (List Char)) : List Char :=
  '[' :: commaSeparated items ++ [']']

/-- The text of an object from its member names and the texts of the values. -/
def objectText (members : List (String × List Char)) : List Char :=
  '{' :: commaSeparated (members.map fun m => quoted m.1 ++ ':' :: m.2) ++ ['}']

namespace Json

mutual

/-- The characters of a value. -/
def chars : Json → List Char
  | .null => ['n', 'u', 'l', 'l']
  | .bool true => ['t', 'r', 'u', 'e']
  | .bool false => ['f', 'a', 'l', 's', 'e']
  | .number n => n.chars
  | .string s => quoted s
  | .array items => arrayText (itemChars items)
  | .object members => objectText (memberChars members)

/-- The characters of each item. -/
def itemChars : List Json → List (List Char)
  | [] => []
  | v :: vs => chars v :: itemChars vs

/-- The name of each member with the characters of its value. -/
def memberChars : List (String × Json) → List (String × List Char)
  | [] => []
  | (k, v) :: ms => (k, chars v) :: memberChars ms

end

/-- The compact text of a value. -/
def text (v : Json) : String :=
  String.ofList v.chars

/-- The compact text of a value as bytes. -/
def bytes (v : Json) : Bytes :=
  Utf8.encode v.text

/-- A value as it appears in a message: a string without its quotes, all else as JSON text. -/
def shown : Json → String
  | .string s => s
  | v => v.text

end Json

end WorkerBroker

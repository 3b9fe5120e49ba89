import WorkerBroker.Text.Hidden
import WorkerBroker.Text.Decimal
/-!
# Quoted literals

`literal` shows a text between quotes in a message. The quote, the backslash and the common
controls are escaped by a letter, and any other character without a form of its own by its
number in braces.
-/

namespace WorkerBroker

/-- An escape by number. -/
def numberedEscape (c : Char) : List Char :=
  ['\\', 'u', '{'] ++ Nat.toDigits 16 c.toNat ++ ['}']

/-- One character of a literal. -/
def literalChar (c : Char) : List Char :=
  if c = '"' then ['\\', '"']
  else if c = '\\' then ['\\', '\\']
  else if c.toNat = 0 then ['\\', '0']
  else if c.toNat = 9 then ['\\', 't']
  else if c.toNat = 10 then ['\\', 'n']
  else if c.toNat = 13 then ['\\', 'r']
  else if c.toNat < 0x20 || c.toNat = 0x7f || isHidden c then numberedEscape c
  else [c]

/-- A text between quotes. -/
def literal (s : String) : String :=
  String.ofList ('"' :: s.toList.flatMap literalChar ++ ['"'])

end WorkerBroker

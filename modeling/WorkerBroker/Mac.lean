import WorkerBroker.Failure
/-!
# MAC addresses

The classifier table takes the word `default`, or six pairs of hexadecimal digits with the same
separator between all of them, a colon or a hyphen. The text is kept as it was given.
`MacAddress.Grammar` states this form without the checker.
-/

namespace WorkerBroker

/-- A hexadecimal digit of either case. -/
def isHexDigit (c : Char) : Bool :=
  ('0' ≤ c && c ≤ '9') || ('a' ≤ c && c ≤ 'f') || ('A' ≤ c && c ≤ 'F')

/-- A pair of hexadecimal digits, and `n` more with a separator in front of each. -/
def isHexPairs (separator : Char) : Nat → List Char → Bool
  | 0, [a, b] => isHexDigit a && isHexDigit b
  | n + 1, a :: b :: s :: rest =>
    isHexDigit a && isHexDigit b && s == separator && isHexPairs separator n rest
  | _, _ => false

/-- The texts that are taken for an address. -/
def isMacText (s : String) : Bool :=
  s == "default" || isHexPairs ':' 5 s.toList || isHexPairs '-' 5 s.toList

/-- An address of the classifier table. -/
structure MacAddress where
  /-- as it was given -/
  text : String
  /-- one of the admitted forms -/
  isMac : isMacText text = true
  deriving DecidableEq, Repr

namespace MacAddress

/-- The address of a text. -/
def ofText? (s : String) : Option MacAddress :=
  if h : isMacText s = true then some ⟨s, h⟩ else none

/-- The address of a text, or the failure that names the key it stands under. -/
def read (key s : String) : Except Failure MacAddress :=
  match ofText? s with
  | some m => .ok m
  | none => .error (.keyInvalid key s)

/-- The admitted texts: the word `default`, or six pairs joined by one separator. -/
def Grammar (s : String) : Prop :=
  s = "default" ∨
    ∃ separator ∈ [':', '-'], ∃ pairs : List (Char × Char), pairs.length = 6 ∧
      (∀ p ∈ pairs, isHexDigit p.1 = true ∧ isHexDigit p.2 = true) ∧
      s.toList = [separator].intercalate (pairs.map fun p => [p.1, p.2])

end MacAddress

end WorkerBroker

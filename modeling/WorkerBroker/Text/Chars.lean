/-!
# Characters of a command line

A command line is a sequence of tokens with single spaces between them, so a text may stand in
it only if no character of it could be taken for a separator. This module holds the two classes
that decide this, `isBlank` (the Unicode property White_Space) and `isControl` (the general
category Cc), the token test `isToken`, and `trim`, which removes blanks at both ends.
-/

namespace WorkerBroker

/-- The Unicode property White_Space. -/
def isBlank (c : Char) : Bool :=
  let n := c.toNat
  (9 ≤ n && n ≤ 13) || n == 0x20 || n == 0x85 || n == 0xa0 || n == 0x1680 ||
    (0x2000 ≤ n && n ≤ 0x200a) || n == 0x2028 || n == 0x2029 || n == 0x202f || n == 0x205f ||
    n == 0x3000

/-- The general category Cc: the C0 and C1 controls and U+007F. -/
def isControl (c : Char) : Bool :=
  c.toNat < 0x20 || (0x7f ≤ c.toNat && c.toNat ≤ 0x9f)

/-- A character that may stand inside a token. -/
def isTokenChar (c : Char) : Bool :=
  !isBlank c && !isControl c

/-- Whether a text is one token of a command line: not empty, and of token characters only. -/
def isToken (s : String) : Bool :=
  !s.toList.isEmpty && s.toList.all isTokenChar

/-- The characters without the blanks at both ends. -/
def trim (cs : List Char) : List Char :=
  ((cs.dropWhile isBlank).reverse.dropWhile isBlank).reverse

/-! ## Small lemmas -/

theorem isToken_iff {s : String} :
    isToken s = true ↔ s.toList ≠ [] ∧ ∀ c ∈ s.toList, isTokenChar c = true := by
  simp [isToken, List.isEmpty_eq_false_iff]

/-- No token character is the space that separates tokens. -/
theorem isTokenChar_space : isTokenChar ' ' = false := by decide

end WorkerBroker

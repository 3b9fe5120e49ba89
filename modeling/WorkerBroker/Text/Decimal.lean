/-!
# Decimal numbers in text

`decimal` writes a number without leading zeros. `readNat` reads an optional single `+` and one
or more ASCII digits, and nothing else; leading zeros are allowed. `readInt` also admits a
minus sign. The bounded readers `readU32` and `readI64` add the bound of a machine word.
-/

namespace WorkerBroker

/-- The decimal text of a number, without leading zeros. -/
def decimal (n : Nat) : String :=
  String.ofList (Nat.toDigits 10 n)

/-- One or more ASCII digits, as their value. -/
def readDigits (cs : List Char) : Option Nat :=
  if cs.isEmpty || !cs.all Char.isDigit then none else some (Nat.ofDigitChars 10 cs 0)

/-- An optional single `+`, then digits. -/
def readNat : List Char → Option Nat
  | '+' :: cs => readDigits cs
  | cs => readDigits cs

/-- An optional single sign, then digits. -/
def readInt : List Char → Option Int
  | '-' :: cs => (readDigits cs).map fun n => -(n : Int)
  | cs => (readNat cs).map Int.ofNat

/-- A number of at most 32 bits, sign `+` allowed. -/
def readU32 (s : String) : Option UInt32 :=
  (readNat s.toList).bind fun n => if n < UInt32.size then some (UInt32.ofNat n) else none

/-- Whether an integer has at most 64 bits, its sign among them. -/
def fitsI64 (n : Int) : Bool :=
  -9223372036854775808 ≤ n ∧ n ≤ 9223372036854775807

/-- An integer of at most 64 bits with its sign. -/
def readI64 (cs : List Char) : Option Int :=
  (readInt cs).bind fun n => if fitsI64 n then some n else none

/-! ## Small lemmas -/

theorem toList_decimal (n : Nat) : (decimal n).toList = Nat.toDigits 10 n := by
  simp [decimal]

/-- What is written reads back. -/
theorem readDigits_toDigits (n : Nat) : readDigits (Nat.toDigits 10 n) = some n := by
  have hall : (Nat.toDigits 10 n).all Char.isDigit = true :=
    List.all_eq_true.2 fun _ hc => Nat.isDigit_of_mem_toDigits (by omega) (by omega) hc
  simp [readDigits, Nat.toDigits_ne_nil, hall, Nat.ofDigitChars_ten_toDigits]

end WorkerBroker

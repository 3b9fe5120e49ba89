/-!
# Binary64 values

A finite binary64 value is `± significand * 2 ^ exponent`. This module reads the three fields
off the 64 bits, rounds a quotient of natural numbers to the nearest value (a half goes to the
even significand), and multiplies and divides magnitudes with that rounding. All arithmetic is
exact arithmetic of natural numbers.
-/

namespace WorkerBroker

/-- The least significand of 53 bits, `2 ^ 52`. -/
def normalUnit : Nat := 4503599627370496

/-- The bit of the sign, `2 ^ 63`. -/
def signUnit : Nat := 9223372036854775808

/-- A finite magnitude `significand * 2 ^ exponent`. -/
structure Magnitude where
  /-- at most 53 bits -/
  significand : Nat
  /-- at least -1074 -/
  exponent : Int
  deriving DecidableEq, Repr

namespace Magnitude

/-- The value as a quotient of natural numbers. -/
def ratio (m : Magnitude) : Nat × Nat :=
  if 0 ≤ m.exponent then (m.significand * Nat.pow 2 m.exponent.toNat, 1)
  else (m.significand, Nat.pow 2 (-m.exponent).toNat)

/-- The quotient rounded to a natural number, a half to the even one. -/
def roundQuotient (num den : Nat) : Nat :=
  let q := num / den
  let r := num % den
  if 2 * r > den ∨ (2 * r = den ∧ q % 2 = 1) then q + 1 else q

/-- The exponent at which the quotient has a significand of 53 bits, but at least -1074. -/
def exponentOf (num den : Nat) : Int :=
  let guess : Int := (Nat.log2 num : Int) - (Nat.log2 den : Int) - 52
  let fits (e : Int) : Bool :=
    if 0 ≤ e then den * Nat.pow 2 e.toNat * normalUnit ≤ num
    else den * normalUnit ≤ num * Nat.pow 2 (-e).toNat
  max (-1074) (if fits guess then guess else guess - 1)

/-- The magnitude nearest to a quotient; its significand may have to be carried into the next
exponent, and its exponent may be too large to be stored. -/
def ofRatio (num den : Nat) : Magnitude :=
  if num = 0 then ⟨0, -1074⟩
  else
    let e := exponentOf num den
    let q := if 0 ≤ e then roundQuotient num (den * Nat.pow 2 e.toNat)
      else roundQuotient (num * Nat.pow 2 (-e).toNat) den
    if q = 2 * normalUnit then ⟨normalUnit, e + 1⟩ else ⟨q, e⟩

/-- Beyond the largest finite value. -/
def isInfinite (m : Magnitude) : Bool :=
  971 < m.exponent

/-- The magnitude nearest to a natural number. -/
def ofNat (n : Nat) : Magnitude := ofRatio n 1

/-- The rounded product. -/
def mul (a b : Magnitude) : Magnitude :=
  ofRatio (a.ratio.1 * b.ratio.1) (a.ratio.2 * b.ratio.2)

/-- The rounded quotient. -/
def div (a b : Magnitude) : Magnitude :=
  ofRatio (a.ratio.1 * b.ratio.2) (a.ratio.2 * b.ratio.1)

/-- The 63 bits below the sign. -/
def bits (m : Magnitude) : Nat :=
  if m.significand < normalUnit then m.significand
  else (m.exponent + 1075).toNat * normalUnit + (m.significand - normalUnit)

/-- The magnitude of 63 bits below the sign. -/
def ofBits (b : Nat) : Magnitude :=
  let field : Nat := b / normalUnit
  if field = 0 then ⟨b, -1074⟩ else ⟨b % normalUnit + normalUnit, Int.ofNat field - 1075⟩

end Magnitude

/-- The bits of a value from its sign and magnitude. -/
def binary64 (negative : Bool) (m : Magnitude) : UInt64 :=
  UInt64.ofNat (m.bits + if negative then signUnit else 0)

/-- The bits of the negative zero. -/
def negativeZero : UInt64 := 0x8000000000000000

end WorkerBroker

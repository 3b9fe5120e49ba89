import WorkerBroker.Json.Binary64
/-!
# The shortest decimal that reads back

The text of a binary64 value has the fewest digits that still round to it; among those of that
length it is the one nearest to the value, and of two equally near ones the even one.
`shortest` finds the digits: for one digit, two, and so on up to seventeen it tests the two
neighbours of the value on the decimal grid of that many digits.

`FloatStyle` decides how the digits are laid out. `jsonStyle` is the layout of JSON text:
positional between 10^-5 and 10^16, with at least one digit after the point, and otherwise
one digit, the point, and an exponent with its sign.
-/

namespace WorkerBroker

/-! ## Digits -/

/-- A decimal `digits * 10 ^ scale`. -/
structure Decimal where
  digits : Nat
  scale : Int
  deriving DecidableEq, Repr

/-- The positive values that round to one magnitude: everything between two bounds, given as
numerators over one denominator, and the bounds too when the significand is even. -/
structure RoundingInterval where
  low : Nat
  value : Nat
  high : Nat
  den : Nat
  closed : Bool

/-- The interval of a positive magnitude. Below a power of two the spacing is half as wide. -/
def Magnitude.interval (m : Magnitude) : RoundingInterval :=
  let below := if m.significand = normalUnit ∧ -1074 < m.exponent then 1 else 2
  let (num, den) := m.ratio
  -- a quarter of the spacing above the value
  let quarter := if 0 ≤ m.exponent then Nat.pow 2 m.exponent.toNat else 1
  { low := 4 * num - below * quarter
    value := 4 * num
    high := 4 * num + 2 * quarter
    den := 4 * den
    closed := m.significand % 2 = 0 }

/-- Whether the number `num / den` lies in the interval. -/
def RoundingInterval.holds (i : RoundingInterval) (num den : Nat) : Bool :=
  if i.closed then i.low * den ≤ num * i.den && num * i.den ≤ i.high * den
  else i.low * den < num * i.den && num * i.den < i.high * den

/-- `digits * 10 ^ scale` as a quotient. -/
def Decimal.ratio (d : Decimal) : Nat × Nat :=
  if 0 ≤ d.scale then (d.digits * Nat.pow 10 d.scale.toNat, 1)
  else (d.digits, Nat.pow 10 (-d.scale).toNat)

/-- The larger neighbour of the value on a grid is nearer than the smaller one, `down`. -/
def RoundingInterval.upperIsNearer (i : RoundingInterval) (down : Decimal) : Bool :=
  -- twice the value against the sum of the neighbours
  let (num, den) := Decimal.ratio { down with digits := 2 * down.digits + 1 }
  2 * i.value * den > num * i.den || (2 * i.value * den == num * i.den && down.digits % 2 == 1)

/-- The decimal on the grid `10 ^ scale` that lies in the interval and is nearest to the value. -/
def RoundingInterval.onGrid (i : RoundingInterval) (scale : Int) : Option Decimal :=
  let digits := if 0 ≤ scale then i.value / (i.den * Nat.pow 10 scale.toNat)
    else i.value * Nat.pow 10 (-scale).toNat / i.den
  let down : Decimal := ⟨digits, scale⟩
  let up : Decimal := ⟨digits + 1, scale⟩
  let hit (d : Decimal) : Bool := i.holds d.ratio.1 d.ratio.2
  match hit down, hit up with
  | true, true => some (if i.upperIsNearer down then up else down)
  | true, false => some down
  | false, true => some up
  | false, false => none

/-- The number of digits before the point of a value at least one, or minus the number of zeros
behind the point of a smaller one: `10 ^ (p - 1) ≤ num / den < 10 ^ p`. -/
def decimalPlace (num den : Nat) : Int :=
  let guess : Int := ((Nat.log2 num : Int) - (Nat.log2 den : Int)) * 30103 / 100000 - 1
  let reaches (p : Int) : Bool :=
    if 0 ≤ p then den * Nat.pow 10 p.toNat ≤ num else den ≤ num * Nat.pow 10 (-p).toNat
  -- the guess is at most three too small
  if reaches (guess + 2) then guess + 3
  else if reaches (guess + 1) then guess + 2
  else if reaches guess then guess + 1
  else guess

/-- Without zeros at the end. -/
def Decimal.stripped : Nat → Decimal → Decimal
  | 0, d => d
  | fuel + 1, d =>
    if d.digits % 10 = 0 ∧ d.digits ≠ 0 then Decimal.stripped fuel ⟨d.digits / 10, d.scale + 1⟩ else d

/-- The shortest decimal that rounds to a positive magnitude. -/
def Magnitude.shortest (m : Magnitude) : Decimal :=
  let i := m.interval
  let place := decimalPlace i.value i.den
  let found := (List.range 17).findSome? fun (n : Nat) => i.onGrid (place - (n + 1))
  Decimal.stripped 20 (found.getD ⟨m.significand, 0⟩)

/-! ## Layout -/

/-- How the digits of a decimal are laid out. -/
structure FloatStyle where
  /-- the decimal exponent from which on there is an exponent -/
  large : Int
  /-- the decimal exponent below which there is an exponent -/
  small : Int
  /-- the mark of the exponent -/
  mark : Char
  /-- whether an exponent that is not negative has a plus sign -/
  plus : Bool
  deriving DecidableEq, Repr

/-- JSON text writes an exponent from 10^16 on and below 10^-5, always with its sign. -/
def jsonStyle : FloatStyle := ⟨16, -5, 'e', true⟩

/-- The text of an integer. -/
def integerText (n : Int) : List Char :=
  match n with
  | .ofNat n => Nat.toDigits 10 n
  | .negSucc n => '-' :: Nat.toDigits 10 (n + 1)

/-- The mark and the exponent. -/
def FloatStyle.exponentText (style : FloatStyle) (n : Int) : List Char :=
  style.mark :: (if style.plus ∧ 0 ≤ n then '+' :: integerText n else integerText n)

/-- Lay out a positive decimal. -/
def FloatStyle.layout (style : FloatStyle) (d : Decimal) : List Char :=
  let ds := Nat.toDigits 10 d.digits
  let exponent : Int := d.scale + ds.length - 1
  if exponent < style.small ∨ style.large ≤ exponent then
    match ds with
    | [c] => c :: style.exponentText exponent
    | c :: cs => c :: '.' :: cs ++ style.exponentText exponent
    | [] => []
  else if 0 ≤ d.scale then ds ++ List.replicate d.scale.toNat '0' ++ ['.', '0']
  else if 0 ≤ exponent then
    ds.take (exponent + 1).toNat ++ '.' :: ds.drop (exponent + 1).toNat
  else '0' :: '.' :: List.replicate (-exponent - 1).toNat '0' ++ ds

/-- The text of a finite binary64 value. -/
def floatText (style : FloatStyle) (bits : UInt64) : List Char :=
  let magnitude := bits.toNat % signUnit
  let body := if magnitude = 0 then ['0', '.', '0']
    else style.layout (Magnitude.ofBits magnitude).shortest
  if signUnit ≤ bits.toNat then '-' :: body else body

end WorkerBroker

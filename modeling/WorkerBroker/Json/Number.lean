import WorkerBroker.Json.Binary64
import WorkerBroker.Json.Syntax
import WorkerBroker.Json.Value
/-!
# JSON numbers

A number literal is an integer when it has neither a fraction nor an exponent and lies within
the 64-bit ranges. Otherwise its value is a binary64 one: the leading digits that fit into 64
bits, rounded to a binary64 value, times or divided by a power of ten that is itself rounded.
That is within a unit of the exact value, not always the nearest one.
-/

namespace WorkerBroker

/-- The value of an ASCII digit. -/
def digitOf? (b : UInt8) : Option Nat :=
  if 0x30 ≤ b && b ≤ 0x39 then some (b.toNat - 0x30) else none

/-- The digits in front and the bytes behind them. -/
def spanDigits (bytes : Bytes) : List Nat × Bytes :=
  go [] bytes
where
  /-- The digits found so far are in `found`, the last one first. -/
  go (found : List Nat) : Bytes → List Nat × Bytes
    | [] => (found.reverse, [])
    | b :: bytes =>
      match digitOf? b with
      | some d => go (d :: found) bytes
      | none => (found.reverse, b :: bytes)

/-- A literal taken apart. -/
structure NumberLiteral where
  negative : Bool
  /-- the digits before the point -/
  whole : List Nat
  /-- the digits behind the point, if there is one -/
  fraction : Option (List Nat)
  /-- the sign of the exponent and its digits, if there is one -/
  exponent : Option (Bool × List Nat)
  deriving DecidableEq, Repr

/-! ## Taking a literal apart -/

/-- Digits that must not be missing. -/
def readSomeDigits (bytes : Bytes) : Reading (List Nat) :=
  match spanDigits bytes with
  | ([], []) => .error ⟨.eofInValue, []⟩
  | ([], rest) => .error (.at .invalidNumber rest)
  | found => .ok found

/-- Digits without a leading zero. -/
def readWhole (bytes : Bytes) : Reading (List Nat) :=
  match readSomeDigits bytes with
  | .ok (0 :: _ :: _, _) => .error (.at .invalidNumber bytes.tail)
  | answer => answer

/-- A point with digits behind it, or nothing. -/
def readFraction (bytes : Bytes) : Reading (Option (List Nat)) :=
  match bytes with
  | 0x2e :: rest => (readSomeDigits rest).map fun (ds, rest) => (some ds, rest)
  | rest => .ok (none, rest)

/-- A sign, `false` for a plus or none. -/
def spanSign : Bytes → Bool × Bytes
  | 0x2d :: rest => (true, rest)
  | 0x2b :: rest => (false, rest)
  | rest => (false, rest)

/-- The letter `e` with a sign and digits behind it, or nothing. -/
def readExponent (bytes : Bytes) : Reading (Option (Bool × List Nat)) :=
  match bytes with
  | [] => .ok (none, [])
  | b :: rest =>
    if b = 0x65 || b = 0x45 then
      let (negative, rest) := spanSign rest
      (readSomeDigits rest).map fun (ds, rest) => (some (negative, ds), rest)
    else .ok (none, b :: rest)

/-- A literal whose sign has been read. -/
def readLiteral (negative : Bool) (bytes : Bytes) : Reading NumberLiteral :=
  match readWhole bytes with
  | .error h => .error h
  | .ok (whole, rest) =>
    match readFraction rest with
    | .error h => .error h
    | .ok (fraction, rest) =>
      match readExponent rest with
      | .error h => .error h
      | .ok (exponent, rest) => .ok (⟨negative, whole, fraction, exponent⟩, rest)

/-! ## Its value -/

/-- Append digits to a number as long as it stays below 2^64; the digits left over come second. -/
def appendDigits (n : Nat) : List Nat → Nat × List Nat
  | [] => (n, [])
  | d :: ds => if 10 * n + d < UInt64.size then appendDigits (10 * n + d) ds else (n, d :: ds)

/-- The number of a list of digits. -/
def numberOf (ds : List Nat) : Nat :=
  ds.foldl (fun n d => 10 * n + d) 0

/-- The largest exponent that is taken as it stands. -/
def exponentLimit : Nat := 2147483647

/-- The digits up to the one that carries an exponent beyond the limit, if one does; the digits
behind it come second. -/
def splitBeyondLimit (n : Nat) : List Nat → Option (List Nat)
  | [] => none
  | d :: ds => if exponentLimit < 10 * n + d then some ds else splitBeyondLimit (10 * n + d) ds

/-- `f * 10 ^ e` with the powers that a binary64 value can hold, 10^308 at a time; `none` when
the value would be infinite. -/
def scaled : Nat → Magnitude → Int → Option Magnitude
  | fuel, f, e =>
    if e.natAbs ≤ 308 then
      let power := Magnitude.ofNat (Nat.pow 10 e.natAbs)
      if 0 ≤ e then
        let product := f.mul power
        if product.isInfinite then none else some product
      else some (f.div power)
    else if f.significand = 0 then some f
    else if 0 ≤ e then none
    else
      match fuel with
      | 0 => some f
      | fuel + 1 => scaled fuel (f.div (Magnitude.ofNat (Nat.pow 10 308))) (e + 308)

/-- The value of `digits * 10 ^ e`. -/
def scaledValue (negative : Bool) (digits : Nat) (e : Int) : Option JsonNumber :=
  (scaled (e.natAbs / 308) (Magnitude.ofNat digits) e).map fun m => .float (binary64 negative m)

/-- The integer of a literal without fraction and exponent, `-0` aside. -/
def integerValue? (negative : Bool) (n : Nat) : Option JsonNumber :=
  if !negative then some (.int n)
  else if n ≠ 0 ∧ n ≤ signUnit then some (.int (-(n : Int)))
  else none

/-- The value of a literal that ends in front of `rest`. -/
def NumberLiteral.value (l : NumberLiteral) (rest : Bytes) : Except Halt JsonNumber :=
  let (digits, wholeDropped) := appendDigits 0 l.whole
  let (digits', fractionDropped) := appendDigits digits (l.fraction.getD [])
  let fractionKept := (l.fraction.getD []).length - fractionDropped.length
  let start : Int := (wholeDropped.length : Int) - fractionKept
  let finish (e : Int) : Except Halt JsonNumber :=
    match scaledValue l.negative digits' e with
    | some n => .ok n
    | none => .error ⟨.numberOutOfRange, rest⟩
  match l.exponent with
  | some (negative, ds) =>
    match splitBeyondLimit 0 ds with
    | some behind =>
      -- the digits behind the limit have not been looked at
      if digits' ≠ 0 ∧ !negative then
        .error ⟨.numberOutOfRange, behind.map (fun d => UInt8.ofNat (d + 0x30)) ++ rest⟩
      else .ok (.float (if l.negative then negativeZero else 0))
    | none => finish (start + if negative then -(numberOf ds : Int) else numberOf ds)
  | none =>
    match l.fraction, wholeDropped with
    | none, [] =>
      match integerValue? l.negative digits with
      | some n => .ok n
      | none => finish 0
    | _, _ => finish start

/-- Read a number whose sign has been read. -/
def readNumber (negative : Bool) (bytes : Bytes) : Reading JsonNumber :=
  match readLiteral negative bytes with
  | .error h => .error h
  | .ok (l, rest) => (l.value rest).map fun n => (n, rest)

end WorkerBroker

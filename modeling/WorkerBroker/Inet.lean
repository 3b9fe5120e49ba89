import WorkerBroker.Text.Cut
import WorkerBroker.Text.Hex
/-!
# Internet addresses

An address is given by numbers or by a name; this module reads those given by numbers, and tells
what can be a name.

An IPv4 address has one to four parts with points between them. Each part but the last is a byte,
and the last fills the bytes that are left, so `127.1` is `127.0.0.1`. A part is decimal, octal
after a `0`, hexadecimal after `0x`.

An IPv6 address has eight groups of up to four hexadecimal digits with colons between them. The
last two groups may be written as four decimal bytes with points, and two colons in a row stand,
once, for one or more groups that are zero.

A name has labels of letters, digits, hyphens and underscores with points between them.
-/

namespace WorkerBroker

/-! ## Digits -/

/-- The value of a digit in a base up to sixteen. -/
def digitIn? (base : Nat) (c : Char) : Option Nat :=
  if c.toNat < 128 then (hexValue? (UInt8.ofNat c.toNat)).filter (· < base) else none

/-- One or more digits in a base, as their value. -/
def readInBase (base : Nat) (cs : List Char) : Option Nat :=
  if cs.isEmpty then none
  else cs.foldlM (fun n c => (digitIn? base c).map fun d => base * n + d) 0

/-! ## IPv4 -/

/-- An IPv4 address. -/
structure Ipv4 where
  value : UInt32
  deriving DecidableEq, Repr, Inhabited

namespace Ipv4

/-- The first byte of an address. -/
def firstByte (a : Ipv4) : Nat := a.value.toNat / 16777216

/-- All the host's own addresses at once, `0.0.0.0`. -/
def any : Ipv4 := ⟨0⟩

/-- All hosts, `255.255.255.255`. -/
def all : Ipv4 := ⟨0xffffffff⟩

/-- The address of the loopback interface, `127.0.0.1`. -/
def loopback : Ipv4 := ⟨0x7f000001⟩

/-- A part of an address. -/
def readPart : List Char → Option Nat
  | '0' :: 'x' :: cs | '0' :: 'X' :: cs => readInBase 16 cs
  | '0' :: cs => readInBase 8 ('0' :: cs)
  | cs => readInBase 10 cs

/-- The address of its parts: bytes, and a last part that fills the bytes that are left. -/
def ofParts (bytes : List Nat) (last : Nat) : Option Ipv4 :=
  let room := Nat.pow 256 (4 - bytes.length)
  if bytes.length ≤ 3 && bytes.all (· < 256) && last < room then
    some ⟨UInt32.ofNat (bytes.foldl (fun n b => 256 * n + b) 0 * room + last)⟩
  else none

/-- The address that a text is. -/
def ofText? (s : String) : Option Ipv4 := do
  let parts ← (cutAt '.' s.toList).mapM readPart
  ofParts parts.dropLast (← parts.getLast?)

end Ipv4

/-! ## IPv6 -/

/-- An IPv6 address: eight groups of 16 bits. -/
structure Ipv6 where
  groups : List UInt16
  length_eq : groups.length = 8
  deriving DecidableEq, Repr

namespace Ipv6

/-- The address of eight groups. -/
def ofGroups? (groups : List Nat) : Option Ipv6 :=
  if h : groups.length = 8 then some ⟨groups.map UInt16.ofNat, by simpa using h⟩ else none

/-- All the host's own addresses at once, `::`. -/
def isAny (a : Ipv6) : Bool := a.groups.all (· = 0)

/-- The address of the loopback interface, `::1`. -/
def isLoopback (a : Ipv6) : Bool := a.groups = [0, 0, 0, 0, 0, 0, 0, 1]

/-- An address that holds only on one network interface and does not say on which, or one of a
group of hosts. -/
def isIncomplete (a : Ipv6) : Bool :=
  a.groups.head?.any fun g => g / 0x40 = 0x3fa || g / 0x100 = 0xff

/-- The IPv4 address that an address stands for. -/
def toIpv4? (a : Ipv6) : Option Ipv4 :=
  match a.groups with
  | [0, 0, 0, 0, 0, 0xffff, high, low] =>
    some ⟨UInt32.ofNat (high.toNat * 65536 + low.toNat)⟩
  | _ => none

/-- One group. -/
def readGroup (cs : List Char) : Option Nat :=
  if cs.length ≤ 4 then readInBase 16 cs else none

/-- A decimal byte without leading zeros. -/
def readByte (cs : List Char) : Option Nat :=
  if cs.head? = some '0' && cs.length ≠ 1 then none else (readInBase 10 cs).filter (· < 256)

/-- The two groups of four decimal bytes. -/
def readBytes (cs : List Char) : Option (List Nat) :=
  match (cutAt '.' cs).mapM readByte with
  | some [a, b, c, d] => some [256 * a + b, 256 * c + d]
  | _ => none

/-- The groups of a text without two colons in a row; `bytes` admits four bytes at its end. -/
def readGroups (bytes : Bool) (cs : List Char) : Option (List Nat) :=
  if cs.isEmpty then some [] else go (cutAt ':' cs)
where
  /-- The groups of the pieces between colons. -/
  go : List (List Char) → Option (List Nat)
    | [] => some []
    | [piece] =>
      if bytes && piece.contains '.' then readBytes piece else (readGroup piece).map ([·])
    | piece :: pieces => do return (← readGroup piece) :: (← go pieces)

/-- What stands before and behind the first two colons in a row. -/
def cutAtColons : List Char → Option (List Char × List Char)
  | [] => none
  | ':' :: ':' :: cs => some ([], cs)
  | c :: cs => (cutAtColons cs).map fun (front, rest) => (c :: front, rest)

/-- The address that a text is. -/
def ofText? (s : String) : Option Ipv6 :=
  match cutAtColons s.toList with
  | none => (readGroups true s.toList).bind ofGroups?
  | some (front, rest) => do
    let front ← readGroups false front
    let rest ← readGroups true rest
    if front.length + rest.length < 8 then
      ofGroups? (front ++ List.replicate (8 - front.length - rest.length) 0 ++ rest)
    else none

end Ipv6

/-! ## Names -/

/-- A character of a label. -/
def isLabelChar (c : Char) : Bool :=
  c.isAlphanum || c = '-' || c = '_'

/-- A label of a name: 1 to 63 characters. -/
def isLabel (cs : List Char) : Bool :=
  !cs.isEmpty && cs.length ≤ 63 && cs.all isLabelChar

/-- Whether a text can be the name of a host: labels with points between them, of at most 253
characters together, and maybe a point at the end. It does not begin with a hyphen. -/
def isHostName (s : String) : Bool :=
  let cs := s.toList
  let name := if cs.getLast? = some '.' then cs.dropLast else cs
  cs = ['.'] || ((cutAt '.' name).all isLabel && name.length ≤ 253 && cs.head? ≠ some '-')

/-! ## Addresses -/

/-- An Internet address. -/
inductive InetAddress where
  | v4 (address : Ipv4)
  | v6 (address : Ipv6)
  deriving DecidableEq, Repr

/-- The address that a text is, if it is given by numbers. -/
def InetAddress.ofText? (s : String) : Option InetAddress :=
  ((Ipv4.ofText? s).map v4).or ((Ipv6.ofText? s).map v6)

end WorkerBroker

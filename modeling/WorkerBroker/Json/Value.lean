import WorkerBroker.Table
import WorkerBroker.Text.Decimal
/-!
# JSON values

A number keeps the kind it was written in: an integer within the 64-bit ranges, or a binary64
value given by its bits. `1.0` is therefore not an integer, and the integer accessors refuse it.
An object is a table by member name.

`Json.member?` looks up a member of an object, `Json.at?` follows a path of member names and
array indices; both answer `none` on any other value.
-/

namespace WorkerBroker

/-- A JSON number. -/
inductive JsonNumber where
  /-- an integer from -2^63 up to 2^64 - 1 -/
  | int (value : Int)
  /-- a binary64 value, by its bits -/
  | float (bits : UInt64)
  deriving DecidableEq, Repr, Inhabited

/-- A JSON value. -/
inductive Json where
  | null
  | bool (b : Bool)
  | number (n : JsonNumber)
  | string (s : String)
  | array (items : List Json)
  | object (members : List (String × Json))
  deriving Inhabited

namespace Json

/-- The value of a natural number. -/
def ofNat (n : Nat) : Json := .number (.int n)

/-- The value of an object whose members are put in one after the other. -/
def ofMembers (members : List (String × Json)) : Json := .object (Table.ofList members)

/-- A member of an object. -/
def member? (key : String) : Json → Option Json
  | .object members => Table.find? key members
  | _ => none

/-- One part of a path, read as an array index: decimal digits without a leading zero. -/
def indexOf? (part : String) : Option Nat :=
  match part.toList with
  | '0' :: _ :: _ => none
  | cs => readDigits cs

/-- One step of a path: a member of an object, an item of an array. -/
def step? (part : String) : Json → Option Json
  | .object members => Table.find? part members
  | .array items => (indexOf? part).bind fun i => items[i]?
  | _ => none

/-- The value at the end of a path. -/
def at? : List String → Json → Option Json
  | [], v => some v
  | part :: path, v => (step? part v).bind (at? path)

/-- The text of a string. -/
def asString? : Json → Option String
  | .string s => some s
  | _ => none

/-- The items of an array. -/
def asArray? : Json → Option (List Json)
  | .array items => some items
  | _ => none

/-- The members of an object. -/
def asObject? : Json → Option (Table String Json)
  | .object members => some members
  | _ => none

/-- A non-negative integer of 64 bits. -/
def asU64? : Json → Option Nat
  | .number (.int n) => if 0 ≤ n ∧ n < UInt64.size then some n.toNat else none
  | _ => none

/-- An integer of 64 bits with its sign. -/
def asI64? : Json → Option Int
  | .number (.int n) => if fitsI64 n then some n else none
  | _ => none

/-- A non-negative integer of 32 bits. -/
def asU32? (v : Json) : Option UInt32 :=
  v.asU64?.bind fun n => if n < UInt32.size then some (UInt32.ofNat n) else none

/-- A list of non-negative integers of 32 bits. -/
def asU32List? (v : Json) : Option (List UInt32) :=
  v.asArray?.bind fun items => items.mapM asU32?

end Json

end WorkerBroker

import WorkerBroker.Json.Printer
import WorkerBroker.Json.Reader
import WorkerBroker.Mac
import WorkerBroker.Port
import WorkerBroker.Text.Chars
/-!
# Bodies of requests

A body is read as JSON whatever its content type. The readers here take one key of it each and
fail with `keyRequired` when the key is missing, with `keyInvalid` and the value when the value
is not admitted. A body that is not an object has no keys.
-/

namespace WorkerBroker

namespace Body

/-- The body as a value. -/
def parse (bytes : Bytes) : Except Failure Json :=
  (Json.read bytes).mapError fun h => .keyInvalid "body" (h.message bytes)

/-- Every key is there, or the first that is missing is reported. -/
def requireAll (body : Json) : List String → Except Failure Unit
  | [] => .ok ()
  | key :: keys =>
    match body.member? key with
    | some _ => requireAll body keys
    | none => .error (.keyRequired key)

/-- The value under a key. -/
def require (body : Json) (key : String) : Except Failure Json :=
  match body.member? key with
  | some v => .ok v
  | none => .error (.keyRequired key)

/-- The value under a key in a narrower form. -/
def requireAs {α : Type} (body : Json) (key : String) (narrow : Json → Option α) :
    Except Failure α :=
  match require body key with
  | .error e => .error e
  | .ok v =>
    match narrow v with
    | some a => .ok a
    | none => .error (.keyInvalid key v.shown)

/-- A string. -/
def text (body : Json) (key : String) : Except Failure String :=
  requireAs body key Json.asString?

/-- A name that is one token of a command line. -/
def checkName (key name : String) : Except Failure String :=
  if isToken name then .ok name else .error (.keyInvalid key name)

/-- A string that is one token of a command line. -/
def name (body : Json) (key : String) : Except Failure String :=
  (text body key).bind (checkName key)

/-- One of some strings. -/
def choice (body : Json) (key : String) (choices : List String) : Except Failure String :=
  (text body key).bind fun s => if s ∈ choices then .ok s else .error (.keyInvalid key s)

/-- A non-negative integer of 32 bits; a string of digits is not one. -/
def word (body : Json) (key : String) : Except Failure UInt32 :=
  requireAs body key Json.asU32?

/-- An object. -/
def object (body : Json) (key : String) : Except Failure (Table String Json) :=
  requireAs body key Json.asObject?

/-- A port. -/
def port (body : Json) (key : String) : Except Failure Port :=
  (text body key).bind (Port.read key)

/-- A MAC address. -/
def mac (body : Json) (key : String) : Except Failure MacAddress :=
  (text body key).bind (MacAddress.read key)

/-! ## Integers that may be given as strings -/

/-- An integer, given as a number or as a string with blanks around it. -/
def integer? : Json → Option Int
  | .string s => readI64 (trim s.toList)
  | v => v.asI64?

/-- A natural number below a bound, given either way. -/
def below? (bound : Nat) (v : Json) : Option Nat :=
  (integer? v).bind fun n => if 0 ≤ n ∧ n < bound then some n.toNat else none

/-- A number of 16 bits, given either way. -/
def word16? (v : Json) : Option UInt16 := (below? UInt16.size v).map UInt16.ofNat

/-- A number of 8 bits, given either way. -/
def word8? (v : Json) : Option UInt8 := (below? UInt8.size v).map UInt8.ofNat

/-- The VLAN id of an entry of the classifier table. -/
def vlanId (body : Json) (key : String) : Except Failure UInt16 :=
  match body.member? key with
  | none => .error (.keyInvalid key "None")
  | some v =>
    match word16? v with
    | some id => .ok id
    | none => .error (.keyInvalid key v.shown)

/-! ## The VLAN tag of an attached port -/

/-- Whether a value stands for no tag operation. -/
def isEmptyTag : Json → Bool
  | .null => true
  | .object members => members.isEmpty
  | _ => false

/-- The tag operation a value describes. -/
def tag? (v : Json) : Option VlanTag :=
  match (v.member? "operation").bind Json.asString? with
  | some operation =>
    if operation = "none" then some .keep
    else if operation = "del" then some .remove
    else if operation = "add" then do
      let id ← (v.member? "id").bind word16?
      let priority ← (v.member? "pcp").bind word8?
      return .add id priority
    else none
  | none => none

/-- The tag operation of a body; none when the key is missing, null or empty. -/
def vlanTag (body : Json) : Except Failure VlanTag :=
  match body.member? "vlan" with
  | none => .ok .keep
  | some v =>
    if isEmptyTag v then .ok .keep
    else
      match tag? v with
      | some tag => .ok tag
      | none => .error (.keyInvalid "vlan" v.shown)

end Body

end WorkerBroker

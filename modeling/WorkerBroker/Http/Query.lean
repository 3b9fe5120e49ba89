import WorkerBroker.Http.Request
/-!
# The query of the unused lcores

The query gives pairs of names and values, joined by `&`, a name and its value by `=`. A `+`
stands for a space, percent signs are decoded, and what is not UTF-8 is replaced. Two names are
known, a master lcore and a count; each may come once, others are ignored. The pairs are read in
order and the first that is wrong is reported.
-/

namespace WorkerBroker

/-- What is wrong with a query. -/
inductive QueryFault where
  /-- a value has no characters -/
  | noDigits
  | invalidDigit
  | tooLarge
  /-- a name comes again -/
  | duplicate (name : String)
  deriving DecidableEq, Repr, Inhabited

/-- The text of a fault. -/
def QueryFault.message : QueryFault → String
  | noDigits => "cannot parse integer from empty string"
  | invalidDigit => "invalid digit found in string"
  | tooLarge => "number too large to fit in target type"
  | duplicate name => "duplicate field \x60" ++ name ++ "\x60"

/-- A query: a master lcore above which lcores are wanted, and how many. -/
structure UnusedQuery where
  master : Option UInt32
  count : Option Nat
  deriving DecidableEq, Repr, Inhabited

namespace UnusedQuery

/-- A part of a pair, decoded. -/
def decodePart (cs : List Char) : String :=
  let spaced := cs.map fun c => if c = '+' then ' ' else c
  String.ofList (Utf8.decodeLossy (percentDecode (Utf8.encode (String.ofList spaced))))

/-- The pairs of a query. -/
def pairs (query : String) : List (String × String) :=
  let parts := (cutAt '&' query.toList).filter fun part => !part.isEmpty
  parts.map fun part =>
    (decodePart (part.takeWhile (· != '=')), decodePart ((part.dropWhile (· != '=')).drop 1))

/-- Read digits one after the other, up to a bound. -/
def appendDigits (bound : Nat) : (n : Nat) → List Char → Except QueryFault Nat
  | n, [] => .ok n
  | n, c :: cs =>
    if !c.isDigit then .error .invalidDigit
    else if 10 * n + (c.toNat - '0'.toNat) < bound then
      appendDigits bound (10 * n + (c.toNat - '0'.toNat)) cs
    else .error .tooLarge

/-- A number below a bound: maybe one `+`, and digits. -/
def readBelow (bound : Nat) (s : String) : Except QueryFault Nat :=
  match s.toList with
  | [] => .error .noDigits
  | ['+'] => .error .invalidDigit
  | '+' :: cs => appendDigits bound 0 cs
  | cs => appendDigits bound 0 cs

/-- Take one pair into what has been read. -/
def takePair (q : UnusedQuery) : String × String → Except QueryFault UnusedQuery
  | (name, value) =>
    if name = "master_lcore" then
      if q.master.isSome then .error (.duplicate name)
      else (readBelow UInt32.size value).map fun n => { q with master := some (UInt32.ofNat n) }
    else if name = "count" then
      if q.count.isSome then .error (.duplicate name)
      else (readBelow UInt64.size value).map fun n => { q with count := some n }
    else .ok q

/-- Take all pairs in. -/
def takePairs : UnusedQuery → List (String × String) → Except QueryFault UnusedQuery
  | q, [] => .ok q
  | q, p :: ps =>
    match takePair q p with
    | .ok q => takePairs q ps
    | .error e => .error e

/-- The query of a target; none is like an empty one. -/
def ofTarget (t : Target) : Except QueryFault UnusedQuery :=
  takePairs ⟨none, none⟩ (pairs (t.query.getD ""))

end UnusedQuery

end WorkerBroker

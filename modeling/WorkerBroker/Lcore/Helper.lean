import WorkerBroker.Json.Printer
import WorkerBroker.Json.Reader
import WorkerBroker.Json.Skip
import WorkerBroker.Lcore.Layout
import WorkerBroker.Text.Literal
/-!
# The layout from a helper

A helper is a program that prints the layout as JSON text. `readLayout` reads that text straight
into sockets and cores, so a value of the wrong shape is reported where it is met, before any
fault of the text behind it. A socket or a core is an object with its two members, in any order
and among others, or an array of just the two values.
-/

namespace WorkerBroker

/-! ## What a helper did -/

/-- How a helper ended. -/
inductive HelperRun where
  /-- there is no such program -/
  | missing
  /-- it ended by itself; the low eight bits of a status are kept -/
  | exited (status : UInt8) (output : Bytes)
  | killed (signal : Nat)
  deriving DecidableEq, Repr, Inhabited

/-- The signals that do nothing to a program without arrangements for them: that a child ended,
that it may go on, that there is urgent data, and that the window has another size. -/
def harmlessSignals : List Nat := [17, 18, 23, 28]

/-- Whether a program without arrangements is killed by a signal. -/
def isDeadly (signal : Nat) : Bool :=
  0 < signal && signal ≤ 64 && !harmlessSignals.contains signal

/-- What a helper did that sent itself a signal before its end. -/
def HelperRun.signalled (signal : Nat) (run : HelperRun) : HelperRun :=
  if isDeadly signal then .killed signal else run

/-- The names of the signals, from 1 on. -/
def signalNames : List String :=
  [ "SIGHUP", "SIGINT", "SIGQUIT", "SIGILL", "SIGTRAP", "SIGABRT", "SIGBUS", "SIGFPE", "SIGKILL",
    "SIGUSR1", "SIGSEGV", "SIGUSR2", "SIGPIPE", "SIGALRM", "SIGTERM", "SIGSTKFLT", "SIGCHLD",
    "SIGCONT", "SIGSTOP", "SIGTSTP", "SIGTTIN", "SIGTTOU", "SIGURG", "SIGXCPU", "SIGXFSZ",
    "SIGVTALRM", "SIGPROF", "SIGWINCH", "SIGIO", "SIGPWR", "SIGSYS" ]

/-- A signal in messages. -/
def signalText (signal : Nat) : String :=
  let name := match signal with
    | 0 => none
    | n + 1 => signalNames[n]?
  "signal: " ++ decimal signal ++
    (match name with
      | some s => " (" ++ s ++ ")"
      | none => "")

/-! ## Values of the wrong shape -/

/-- A value as it is described when it has the wrong type. -/
inductive FoundValue where
  | null
  | bool (b : Bool)
  | number (n : JsonNumber)
  | string (s : String)
  | list
  | map

/-- The description of a value. -/
def FoundValue.text : FoundValue → String
  | null => "null"
  | bool true => "boolean `true`"
  | bool false => "boolean `false`"
  | number (.int n) => "integer `" ++ String.ofList (integerText n) ++ "`"
  | number (.float bits) => "floating point `" ++ String.ofList (floatText jsonStyle bits) ++ "`"
  | string s => "string " ++ literal s
  | list => "sequence"
  | map => "map"

/-- What can be wrong with a helper's output. -/
inductive LayoutFault where
  | malformed (fault : SyntaxFault)
  | wrongType (found : FoundValue) (expected : String)
  | wrongValue (n : Int) (expected : String)
  | missingMember (name : String)
  | repeatedMember (name : String)
  | tooShort (length : Nat) (expected : String)

/-- The words for a fault. -/
def LayoutFault.message : LayoutFault → String
  | malformed fault => fault.message
  | wrongType found expected => "invalid type: " ++ found.text ++ ", expected " ++ expected
  | wrongValue n expected =>
    "invalid value: integer `" ++ String.ofList (integerText n) ++ "`, expected " ++ expected
  | missingMember name => "missing field `" ++ name ++ "`"
  | repeatedMember name => "duplicate field `" ++ name ++ "`"
  | tooShort length expected => "invalid length " ++ decimal length ++ ", expected " ++ expected

/-! ## Reading shapes -/

/-- What a reader of a shape answers. -/
abbrev Shaped (α : Type) := Except LayoutFault (α × Bytes)

/-- The value that starts with `b`, described. Arrays and objects are not read further. -/
def foundValue (b : UInt8) (rest : Bytes) : Except Halt FoundValue :=
  if b = 0x6e then (readWord [0x75, 0x6c, 0x6c] rest).map fun _ => .null
  else if b = 0x74 then (readWord [0x72, 0x75, 0x65] rest).map fun _ => .bool true
  else if b = 0x66 then (readWord [0x61, 0x6c, 0x73, 0x65] rest).map fun _ => .bool false
  else if b = 0x2d then (readNumber true rest).map fun r => .number r.1
  else if 0x30 ≤ b && b ≤ 0x39 then (readNumber false (b :: rest)).map fun r => .number r.1
  else if b = 0x22 then (readText rest).map fun r => .string r.1
  else if b = 0x5b then .ok .list
  else if b = 0x7b then .ok .map
  else .error ⟨.expectedValue, rest⟩

/-- A value of another type than the expected one. -/
def refuse {α : Type} (expected : String) (b : UInt8) (rest : Bytes) : Shaped α :=
  match foundValue b rest with
  | .error h => .error (.malformed h.fault)
  | .ok found => .error (.wrongType found expected)

/-- An id or an lcore. -/
def readId (bytes : Bytes) : Shaped UInt32 :=
  match skipBlanks bytes with
  | [] => .error (.malformed .eofInValue)
  | b :: rest =>
    if b = 0x2d || (0x30 ≤ b && b ≤ 0x39) then
      match readNumber (b = 0x2d) (if b = 0x2d then rest else b :: rest) with
      | .error h => .error (.malformed h.fault)
      | .ok (.int n, rest) =>
        if 0 ≤ n ∧ n < UInt32.size then .ok (UInt32.ofNat n.toNat, rest)
        else .error (.wrongValue n "u32")
      | .ok (.float bits, _) => .error (.wrongType (.number (.float bits)) "u32")
    else refuse "u32" b rest

/-- Items up to the closing bracket; `found` are those before, the last one first. The recursion
is on `bound`, which is at least as long as the bytes. -/
def readListFrom {α : Type} (item : Bytes → Shaped α) : (bound : Bytes) → (found : List α) →
    Bytes → Shaped (List α)
  | [], _, _ => .error (.malformed .eofInValue)
  | _ :: bound, found, bytes =>
    match item bytes with
    | .error e => .error e
    | .ok (v, rest) =>
      match afterItem rest with
      | .error h => .error (.malformed h.fault)
      | .ok (.closed rest) => .ok ((v :: found).reverse, rest)
      | .ok (.another rest) => readListFrom item bound (v :: found) rest

/-- A list of items of one shape. -/
def readList {α : Type} (item : Bytes → Shaped α) (bytes : Bytes) : Shaped (List α) :=
  match skipBlanks bytes with
  | [] => .error (.malformed .eofInValue)
  | b :: rest =>
    if b = 0x5b then
      match afterOpenList rest with
      | .error h => .error (.malformed h.fault)
      | .ok (.closed rest) => .ok ([], rest)
      | .ok (.another rest) => readListFrom item rest [] rest
    else refuse "a sequence" b rest

/-- A record with two members. -/
structure RecordShape (α β : Type) where
  /-- what it is called in messages -/
  name : String
  firstName : String
  first : Bytes → Shaped α
  secondName : String
  second : Bytes → Shaped β

namespace RecordShape

variable {α β : Type} (shape : RecordShape α β)

/-- The end of an array that has all it should have. -/
def endOfArray (bytes : Bytes) : Except LayoutFault Bytes :=
  match skipBlanks bytes with
  | [] => .error (.malformed .eofInList)
  | b :: rest =>
    if b = 0x5d then .ok rest
    else if b = 0x2c then
      match skipBlanks rest with
      | c :: _ => .error (.malformed (if c = 0x5d then .trailingComma else .trailingCharacters))
      | [] => .error (.malformed .trailingCharacters)
    else .error (.malformed .trailingCharacters)

/-- The words for an array with too few values. -/
def tooShort (length : Nat) : LayoutFault :=
  .tooShort length (shape.name ++ " with 2 elements")

/-- The two values of an array, from behind its opening bracket. -/
def readArray (bytes : Bytes) : Shaped (α × β) :=
  match afterOpenList bytes with
  | .error h => .error (.malformed h.fault)
  | .ok (.closed _) => .error (shape.tooShort 0)
  | .ok (.another rest) =>
    match shape.first rest with
    | .error e => .error e
    | .ok (a, rest) =>
      match afterItem rest with
      | .error h => .error (.malformed h.fault)
      | .ok (.closed _) => .error (shape.tooShort 1)
      | .ok (.another rest) =>
        match shape.second rest with
        | .error e => .error e
        | .ok (b, rest) => (endOfArray rest).map fun rest => ((a, b), rest)

/-- The colon behind a name. -/
def readColon (bytes : Bytes) : Except LayoutFault Bytes :=
  match skipBlanks bytes with
  | [] => .error (.malformed .eofInObject)
  | b :: rest => if b = 0x3a then .ok rest else .error (.malformed .expectedColon)

/-- The values found so far, with that of a member added. -/
def readMember (found : Option α × Option β) (name : String) (bytes : Bytes) :
    Shaped (Option α × Option β) :=
  if name = shape.firstName then
    if found.1.isSome then .error (.repeatedMember name)
    else
      match readColon bytes with
      | .error e => .error e
      | .ok rest => (shape.first rest).map fun (a, rest) => ((some a, found.2), rest)
  else if name = shape.secondName then
    if found.2.isSome then .error (.repeatedMember name)
    else
      match readColon bytes with
      | .error e => .error e
      | .ok rest => (shape.second rest).map fun (b, rest) => ((found.1, some b), rest)
  else
    match readColon bytes with
    | .error e => .error e
    | .ok rest =>
      match skipValue rest with
      | .error f => .error (.malformed f)
      | .ok rest => .ok (found, rest)

/-- Both values, or the member that is missing. -/
def finish (found : Option α × Option β) : Except LayoutFault (α × β) :=
  match found with
  | (some a, some b) => .ok (a, b)
  | (none, _) => .error (.missingMember shape.firstName)
  | (_, none) => .error (.missingMember shape.secondName)

/-- The members of an object from behind the quote of a name, with a bound at least as long as
the bytes. -/
def readMembers : (bound : Bytes) → (found : Option α × Option β) → Bytes → Shaped (α × β)
  | [], _, _ => .error (.malformed .eofInString)
  | _ :: bound, found, bytes =>
    match readText bytes with
    | .error h => .error (.malformed h.fault)
    | .ok (name, rest) =>
      match shape.readMember found name rest with
      | .error e => .error e
      | .ok (found, rest) =>
        match afterMember rest with
        | .error h => .error (.malformed h.fault)
        | .ok (.closed rest) => (shape.finish found).map fun r => (r, rest)
        | .ok (.another rest) => readMembers bound found rest

/-- Read a record in either form. -/
def read (bytes : Bytes) : Shaped (α × β) :=
  match skipBlanks bytes with
  | [] => .error (.malformed .eofInValue)
  | b :: rest =>
    if b = 0x5b then shape.readArray rest
    else if b = 0x7b then
      match afterOpenObject rest with
      | .error h => .error (.malformed h.fault)
      | .ok (.closed rest) => (shape.finish (none, none)).map fun r => (r, rest)
      | .ok (.another rest) => shape.readMembers rest (none, none) rest
    else refuse shape.name b rest

end RecordShape

/-! ## Layouts -/

/-- The shape of a core. -/
def coreShape : RecordShape UInt32 (List UInt32) :=
  ⟨"struct CoreLayout", "core_id", readId, "lcores", readList readId⟩

/-- A core. -/
def readCore (bytes : Bytes) : Shaped Core :=
  (coreShape.read bytes).map fun ((id, lcores), rest) => (⟨id, lcores⟩, rest)

/-- The shape of a socket. -/
def socketShape : RecordShape UInt32 (List Core) :=
  ⟨"struct SocketLayout", "socket_id", readId, "cores", readList readCore⟩

/-- A socket. -/
def readSocket (bytes : Bytes) : Shaped Socket :=
  (socketShape.read bytes).map fun ((id, cores), rest) => (⟨id, cores⟩, rest)

/-- The layout that a text holds. -/
def readLayout (text : Bytes) : Except LayoutFault (List Socket) :=
  match readList readSocket text with
  | .error e => .error e
  | .ok (layout, rest) =>
    match readEnd rest with
    | .error h => .error (.malformed h.fault)
    | .ok () => .ok layout

/-- The layout of a helper, given by its path, or what went wrong. -/
def helperLayout (path : String) (run : HelperRun) : Except Failure (List Socket) :=
  match run with
  | .missing => .error (.layoutUnavailable (path ++ ": No such file or directory (os error 2)"))
  | .killed signal => .error (.layoutUnavailable (path ++ " exited with " ++ signalText signal))
  | .exited status output =>
    if status ≠ 0 then
      .error (.layoutUnavailable (path ++ " exited with exit status: " ++ decimal status.toNat))
    else
      (readLayout output).mapError fun f =>
        .layoutUnavailable ("invalid layout JSON: " ++ f.message)

end WorkerBroker

import WorkerBroker.Failure
/-!
# Settings

Where the broker listens, how long it waits for a worker, and where it reads the CPU layout.
`Settings.check` refuses settings the broker cannot run with: no waiting time at all, or one
port for two listeners. Port 0 stands for a free port and may be given more than once.
-/

namespace WorkerBroker

/-- Where the CPU layout is read. -/
inductive LayoutPlace where
  /-- from the files below a directory -/
  | sysfs (path : String)
  /-- from a helper program -/
  | helper (path : String)
  deriving DecidableEq, Repr, Inhabited

/-- The settings of a broker. -/
structure Settings where
  bindAddress : String
  primaryPort : UInt16
  secondaryPort : UInt16
  apiPort : UInt16
  /-- how long a worker may take to answer, in milliseconds -/
  timeout : Nat
  layout : LayoutPlace
  deriving DecidableEq, Repr, Inhabited

namespace Settings

/-- The settings that hold unless others are given. -/
def standard : Settings where
  bindAddress := "localhost"
  primaryPort := 5555
  secondaryPort := 6666
  apiPort := 7777
  timeout := 10000
  layout := .sysfs "/sys/devices/system/cpu"

/-- The ports of the listeners. -/
def ports (s : Settings) : List UInt16 :=
  [s.primaryPort, s.secondaryPort, s.apiPort]

/-- The first port, other than 0, that comes again. -/
def sharedPort? : List UInt16 → Option UInt16
  | [] => none
  | p :: ps => if p ≠ 0 ∧ p ∈ ps then some p else sharedPort? ps

/-- Refuse settings the broker cannot run with. -/
def check (s : Settings) : Except Failure Unit :=
  if s.timeout = 0 then .error (.settings "command timeout must be greater than zero")
  else
    match sharedPort? s.ports with
    | some p =>
      .error (.settings ("port " ++ decimal p.toNat ++ " is assigned to more than one listener"))
    | none => .ok ()

end Settings

end WorkerBroker

import WorkerBroker.CommandLine
import WorkerBroker.Host
/-!
# Starting the broker

The settings are checked, then the listeners are bound: the one for the primary, the one for the
secondaries, and last the one for requests. The first thing that fails ends the program.
-/

namespace WorkerBroker

/-- What starting the program comes to. -/
inductive Startup where
  | help
  /-- the arguments cannot be understood -/
  | misuse
  | failed (reason : Failure)
  | serving (settings : Settings)
  deriving Inhabited

namespace Startup

/-- Bind a listener for workers. -/
def bindWorkers (host : Host) (address : String) (port : UInt16) : Except Failure Unit :=
  match host.bindFault? address port with
  | some fault =>
    .error (.system ("cannot bind " ++ address ++ ":" ++ decimal port.toNat ++ ": " ++ fault))
  | none => .ok ()

/-- Bind the listener for requests. -/
def bindApi (host : Host) (address : String) (port : UInt16) : Except Failure Unit :=
  match host.bindFault? address port with
  | some fault => .error (.other fault)
  | none => .ok ()

/-- Check settings and bind the listeners. -/
def listen (host : Host) (s : Settings) : Except Failure Unit := do
  s.check
  bindWorkers host s.bindAddress s.primaryPort
  bindWorkers host s.bindAddress s.secondaryPort
  bindApi host s.bindAddress s.apiPort

/-- Start the program with these arguments. -/
def ofArguments (host : Host) (arguments : List String) : Startup :=
  match Invocation.ofArguments arguments with
  | .help => help
  | .misuse => misuse
  | .run s =>
    match listen host s with
    | .ok () => serving s
    | .error e => failed e

/-- The exit code; a program that serves ends well when it is interrupted. -/
def exitCode : Startup → Nat
  | help | serving _ => 0
  | failed _ => 1
  | misuse => 2

/-- What is said about a failure. -/
def message? : Startup → Option String
  | failed e => some e.message
  | _ => none

end Startup

end WorkerBroker

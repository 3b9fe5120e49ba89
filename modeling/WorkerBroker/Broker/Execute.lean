import WorkerBroker.Broker.Program
import WorkerBroker.Reply
/-!
# Commands to one member

`execute` sends a command to a member and gives the reply as a value. A member that did not
answer is unregistered as dead, unless its worker has reconnected meanwhile. `exit` asks a worker
to end: after a reply that is no error the member is shut and unregistered, after an error that
the worker reported it stays, and without any reply it is dead.
-/

namespace WorkerBroker

namespace Program

/-- What the outcome of a command means to whoever asked for it. -/
def judge (r : Ref) (c : Command) : Outcome → Except Failure Json
  | .ok raw => decodeReply raw
  | .error s => .error (.noReply r.label c.verb s.reason)

/-- Send a command and wait for its reply. One that the worker does not know is not sent. -/
def execute (r : Ref) (c : Command) : Program (Except Failure Json) :=
  if c.supportedBy r.kind then do
    let outcomes ← converse [(r, c)]
    return judge r c (outcomes.headD (.error .closed))
  else return .error (.unsupported r.label c.verb)

/-- Drop a member's connection for good. Whoever talks to the worker gets no reply. -/
def close (r : Ref) : Program Unit := do
  let _ ← advance r
  shut r

/-- Give a member a new connection in the place of the one it has. -/
def replaceConnection (r : Ref) (link : Nat) : Program Offered := do
  let generation ← advance r
  offer r generation link

/-- Unregister a member that did not answer, unless it has a new connection. -/
def unregisterDead (r : Ref) : Program Bool := do
  if ← retire r then
    let _ ← strike r
    return true
  else return false

/-- What follows from the answer to `exit`. -/
def afterExit (r : Ref) : Except Failure Json → Program Unit
  | .ok _ => do
    close r
    let _ ← strike r
  | .error e => do
    if e.isTransport then
      let _ ← unregisterDead r

/-- Ask a worker to end, and unregister it. -/
def exit (r : Ref) : Program (Except Failure Json) := do
  let answer ← execute r .exit
  afterExit r answer
  return answer

end Program

end WorkerBroker

import WorkerBroker.Broker.Lookup
import WorkerBroker.Broker.Sweep
import WorkerBroker.Http.Info
import WorkerBroker.Http.Query
import WorkerBroker.Http.Route
/-!
# The gateway

`handle` is what the broker does for a request. An unknown path is answered before the method is
looked at, a method that is not admitted before the texts of the path, those before the body. The
body is read before the worker is looked up, so a malformed one is refused whether or not the
worker is there. Whatever the request, at most one command follows from it, and only after all
checks.
-/

namespace WorkerBroker

/-- How many bytes a body may have. -/
def bodyLimit : Nat := 2 * 1024 * 1024

/-- A body that is too long. -/
def Response.bodyTooLong : Response :=
  text 413 "Failed to buffer the request body: length limit exceeded"

namespace Address

/-- The member that an address names. -/
def resolve : Address → Program (Except Failure Ref)
  | primary => Program.primary
  | secondary kind id =>
    match readU32 id with
    | some n => Program.secondary kind n
    | none => .done (.error (.notFound ("sec_id " ++ id)))

end Address

namespace Gateway

/-! ## One worker -/

/-- Do something with the member that an address names. -/
def withMember (a : Address) (f : Ref → Program Response) : Program Response := do
  match ← a.resolve with
  | .ok r => f r
  | .error e => return .failure e

/-- Send the member that an address names a command, if there is one. -/
def send (a : Address) (command : WorkerKind → Except Failure Command) : Program Response :=
  withMember a fun r =>
    match command r.kind with
    | .ok c => do return .ofDone (← Program.execute r c)
    | .error e => .done (.failure e)

/-- Show the status of a member. -/
def display (r : Ref) : Program Response := do
  let status ← Program.execute r .status
  return .ofPayload ((status.bind (present r)).map Json.chars)

/-- Carry out an order. -/
def carryOut (a : Address) (o : Order) (bytes : Bytes) : Program Response :=
  if bytes.length > bodyLimit then .done .bodyTooLong
  else
    match Body.parse bytes with
    | .error e => .done (.failure e)
    | .ok body =>
      match if o.keysFirst then Body.requireAll body o.requiredKeys else .ok () with
      | .error e => .done (.failure e)
      | .ok () => send a fun kind => o.command kind body

/-- Do something with one worker. -/
def serve (a : Address) (bytes : Bytes) : Action → Program Response
  | .display => withMember a display
  | .exit => withMember a fun r => do return .ofDone (← Program.exit r)
  | .clear => send a fun _ => .ok .clear
  | .resetPatches => send a fun _ => .ok .resetPatches
  | .stopComponent name => send a fun _ => (Body.checkName "name" name).map .stopComponent
  | .order o => carryOut a o bytes

/-! ## All workers -/

/-- The lcores that are offered to a master: as many as are asked for, all of them when no number
is given, none when there are too few. -/
def offeredSlaves (unused : List UnusedLcores) (q : UnusedQuery) : Option (List UInt32) :=
  q.master.map fun master =>
    let count := q.count.getD (unused.flatMap UnusedLcores.lcores).length
    (pickSlaves unused master count).getD []

/-- The published text of the unused lcores with those offered to a master. -/
def unusedPayload (unused : List UnusedLcores) (slaves : Option (List UInt32)) : List Char :=
  objectText (("sockets", unusedText unused) ::
    slaves.toList.map fun ls => ("slave_lcores", lcoresText ls))

/-- Show the unused lcores. -/
def displayUnused (layout : List Socket) (q : UnusedQuery) : Program Response := do
  let unused ← Program.cpuUnused layout q.master
  return .json (unusedPayload unused (offeredSlaves unused q))

/-! ## Requests -/

/-- Do what a request is for. -/
def perform (layout : List Socket) (request : Request) : Errand → Program Response
  | .listing => do return .json (arrayText ((← Program.listing).map Entry.chars))
  | .cpuUsage => do return .json (arrayText ((← Program.cpuUsage).map Usage.chars))
  | .cpuLayout => .done (.json (layoutText layout).toList)
  | .cpuUnused =>
    match UnusedQuery.ofTarget request.target with
    | .ok q => displayUnused layout q
    | .error fault =>
      .done (.text 400 ("Failed to deserialize query string: " ++ fault.message))
  | .worker address action => serve address request.body action

/-- Do what a request is for, once the texts of its path are decoded. -/
def attend (layout : List Socket) (request : Request) (e : Errand) : Program Response :=
  match e.decode with
  | .ok e => perform layout request e
  | .error response => .done response

/-- What the broker does for a request. -/
def handle (layout : List Socket) (request : Request) : Program Response :=
  let rs := routes request.target.segments
  let allow := if rs.isEmpty then none else some (admittedMethods rs)
  if request.method = .options then .done { Response.bare 200 with allow }
  else if rs.isEmpty then .done (.bare 404)
  else
    match errandFor? request.method rs with
    | none => .done { Response.bare 405 with allow }
    | some e => do
      let response ← attend layout request e
      return if request.method = .head then response.withoutBody else response

end Gateway

end WorkerBroker

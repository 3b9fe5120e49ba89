import WorkerBroker.Broker.Program
import WorkerBroker.Json.Printer
import WorkerBroker.Port
/-!
# What a status query shows

The status of the primary and of a forwarder is passed on as it is. Of a capture only the part
`info` is shown. For a worker that runs components that part is reshaped: the ports of three
types become one list of port names, and the table of the classifier is shown if there is one.
-/

namespace WorkerBroker

/-- The types of the ports that a status lists, in the order in which they are shown. -/
def statusPortTypes : List PortType := [.phy, .vhost, .ring]

/-- The name of the port of a type with this index. -/
def portName (type : PortType) (index : Nat) : String :=
  type.name ++ ":" ++ decimal index

/-- The names of the ports of one type. -/
def portNames (info : Json) (type : PortType) : Option (List String) := do
  let indices ← (info.member? type.name).bind Json.asArray?
  let indices ← indices.mapM Json.asU64?
  return indices.map (portName type)

/-- The names of all ports. -/
def allPortNames (info : Json) : Option (List String) :=
  (statusPortTypes.mapM (portNames info)).map List.flatten

/-- The part `info` of a status, reshaped. -/
def convertInfo (status : Json) : Option Json := do
  let info ← status.member? "info"
  let ports ← allPortNames info
  let id ← info.member? "client-id"
  let master ← info.member? "master-lcore"
  let components ← info.member? "core"
  let shown := [("client-id", id), ("ports", Json.array (ports.map Json.string)),
    ("master-lcore", master), ("components", components)]
  return Json.ofMembers <| shown ++
    ((info.member? "classifier_table").toList.map fun table => ("classifier_table", table))

/-- What is shown of a member's status. -/
def present (r : Ref) (status : Json) : Except Failure Json :=
  match r.kind with
  | .primary | .nfv => .ok status
  | .vf | .mirror =>
    match convertInfo status with
    | some info => .ok info
    | none => .error (.other (r.label ++ ": malformed status"))
  | .pcap =>
    match status.member? "info" with
    | some info => .ok info
    | none => .error (.other (r.label ++ ": status without info"))

end WorkerBroker

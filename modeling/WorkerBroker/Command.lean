import WorkerBroker.Launch
import WorkerBroker.Mac
import WorkerBroker.Port
import WorkerBroker.Worker
/-!
# Commands

A command is sent to a worker as one line, its fields with single spaces between them
(`Command.line`). Which kinds of workers understand a command is decided by
`Command.supportedBy`, before anything is sent.

A launch without options of the environment layer has an empty field in their place, and one
without options of the application ends in an empty field, so its line ends in a space.
-/

namespace WorkerBroker

/-- What happens to an entry of the classifier table. -/
inductive TableAction where
  | add
  | del
  deriving DecidableEq, Repr, Inhabited

/-- The name of a table action. -/
def TableAction.name : TableAction → String
  | .add => "add"
  | .del => "del"

/-- An entry of the classifier table: packets for an address, maybe within a VLAN, go to a port. -/
structure TableEntry where
  vlan : Option UInt16
  mac : MacAddress
  port : Port
  deriving DecidableEq, Repr

/-- A command to a worker. -/
inductive Command where
  /-- asks a secondary for its kind and id -/
  | identify
  | status
  /-- clears the statistics of the primary's ports -/
  | clear
  | addPort (port : Port)
  | delPort (port : Port)
  | patch (src dst : Port)
  | resetPatches
  | forward
  | stop
  /-- starts a capture -/
  | start
  | exit
  | launch (launch : Launch)
  | startComponent (name : String) (core : UInt32) (kind : ComponentKind)
  | stopComponent (name : String)
  | attachPort (port : Port) (direction : Direction) (component : String) (tag : VlanTag)
  | detachPort (port : Port) (direction : Direction) (component : String)
  | classifierTable (action : TableAction) (entry : TableEntry)
  deriving DecidableEq, Repr

namespace Command

/-- Whether a kind of worker understands a command. -/
def supportedBy (kind : WorkerKind) : Command → Bool
  | status | exit => true
  | identify => kind.isSecondary
  | clear | launch _ => kind = .primary
  | addPort _ | delPort _ | patch _ _ | resetPatches | forward => kind = .primary ∨ kind = .nfv
  | stop => kind = .primary ∨ kind = .nfv ∨ kind = .pcap
  | start => kind = .pcap
  | startComponent _ _ component => component ∈ ComponentKind.allowedFor kind
  | stopComponent _ | detachPort _ _ _ | attachPort _ _ _ .keep => kind = .vf ∨ kind = .mirror
  | attachPort _ _ _ _ | classifierTable _ _ => kind = .vf

/-- The verb of a command in messages. -/
def verb : Command → String
  | identify => "_get_client_id"
  | status => "status"
  | clear => "clear"
  | addPort _ | attachPort _ _ _ _ => "add"
  | delPort _ | detachPort _ _ _ => "del"
  | patch _ _ | resetPatches => "patch"
  | forward => "forward"
  | stop | stopComponent _ => "stop"
  | start | startComponent _ _ _ => "start"
  | exit => "exit"
  | launch _ => "launch"
  | classifierTable _ _ => "classifier_table"

/-- A list of fields, with one empty field in place of none. -/
def orEmptyField : List String → List String
  | [] => [""]
  | fields => fields

/-- The fields of a VLAN tag operation. -/
def tagFields : VlanTag → List String
  | .keep => []
  | .add id priority => ["add_vlantag", decimal id.toNat, decimal priority.toNat]
  | .remove => ["del_vlantag"]

/-- The fields of an entry of the classifier table. -/
def entryFields (e : TableEntry) : List String :=
  match e.vlan with
  | none => ["mac", e.mac.text, e.port.text]
  | some vlan => ["vlan", decimal vlan.toNat, e.mac.text, e.port.text]

/-- The fields of a command's line. -/
def fields : Command → List String
  | identify => ["_get_client_id"]
  | status => ["status"]
  | clear => ["clear"]
  | addPort port => ["add", port.text]
  | delPort port => ["del", port.text]
  | patch src dst => ["patch", src.text, dst.text]
  | resetPatches => ["patch", "reset"]
  | forward => ["forward"]
  | stop => ["stop"]
  | start => ["start"]
  | exit => ["exit"]
  | launch l =>
    ["launch", decimal l.clientId.toNat, l.app] ++ orEmptyField l.eal ++ ["--"] ++
      orEmptyField l.options
  | startComponent name core kind => ["component", "start", name, decimal core.toNat, kind.name]
  | stopComponent name => ["component", "stop", name]
  | attachPort port direction component tag =>
    ["port", "add", port.text, direction.name, component] ++ tagFields tag
  | detachPort port direction component => ["port", "del", port.text, direction.name, component]
  | classifierTable action entry => ["classifier_table", action.name] ++ entryFields entry

/-- The line of a command. -/
def line (c : Command) : String :=
  " ".intercalate c.fields

end Command

end WorkerBroker
